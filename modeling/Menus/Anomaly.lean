/-!
# Irregularities in a menu text

Reading never fails. Whatever it had to repair or leave out is recorded as an anomaly, with the
byte at which it was met; anomalies are reported in the order of those bytes.
-/

namespace Menus

/-- The deepest nesting of lists that is built, the outermost list included. -/
def maxDepth : Nat := 128

/-- Something irregular that reading got past. Offsets count bytes of the text. -/
inductive Anomaly where
  /-- A `[` without a closing `]`; its token runs to the end of the text. -/
  | unterminatedBracket (offset : Nat)
  /-- A `(` whose list was still open when the tokens ended. -/
  | unclosedList (offset : Nat)
  /-- A `)` where no list is open. -/
  | unmatchedClose (offset : Nat)
  /-- What follows the first node: the first such token's place, and how many there are. -/
  | trailingTokens (offset count : Nat)
  /-- A list below the deepest nesting that is built; it is left out. -/
  | nestingTooDeep (offset : Nat)
  deriving DecidableEq, Inhabited

namespace Anomaly

/-- The byte at which the anomaly was met. -/
def offset : Anomaly → Nat
  | .unterminatedBracket offset => offset
  | .unclosedList offset => offset
  | .unmatchedClose offset => offset
  | .trailingTokens offset _ => offset
  | .nestingTooDeep offset => offset

/-- The wording about a list that is nested too deeply. -/
def nestingMessage (offset : Nat) : String :=
  s!"list at byte {offset} is nested deeper than {maxDepth} levels"

/-- The wording shown to a user. -/
def message : Anomaly → String
  | .unterminatedBracket offset => s!"unterminated '[' at byte {offset}"
  | .unclosedList offset => s!"list opened at byte {offset} is never closed"
  | .unmatchedClose offset => s!"unmatched ')' at byte {offset}"
  | .trailingTokens offset count => s!"{count} trailing token(s) ignored from byte {offset}"
  | .nestingTooDeep offset => nestingMessage offset

/-- The offset of a list that is nested too deeply, and nothing for any other anomaly. -/
def tooDeep? : Anomaly → Option Nat
  | .nestingTooDeep offset => some offset
  | _ => none

/-- Anomalies in the order of their offsets; those at one offset keep their order. -/
def inOrder (anomalies : List Anomaly) : List Anomaly :=
  anomalies.mergeSort fun first second => first.offset ≤ second.offset

end Anomaly

end Menus
