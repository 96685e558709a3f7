import Menus.Anomaly

/-!
# Tokens of a menu text

A menu text is cut into parentheses, words and bracketed atoms. A bracketed atom is taken as it
stands, from a `[` to the next `]`, blanks and parentheses included; brackets do not nest. Between
tokens there are only spaces, tabs and line feeds. Every text has tokens: a bracket that is never
closed runs to the end and is reported.
-/

namespace Menus

/-- The four kinds of token. -/
inductive Token.Kind where
  /-- The character `(`. -/
  | opening
  /-- The character `)`. -/
  | closing
  /-- A run of characters that are neither gaps, nor parentheses, nor `[`. -/
  | word
  /-- A stretch from `[` to the next `]`, both included. -/
  | bracketed
  deriving DecidableEq, Inhabited

/-- A token, with the byte at which it starts. -/
structure Token where
  kind : Token.Kind
  text : String
  offset : Nat
  deriving DecidableEq, Inhabited

namespace Token

/-- The characters that only separate tokens. Other blanks, a carriage return among them, are
ordinary characters of a word. -/
def isGap (c : Char) : Bool := c = ' ' || c = '\t' || c = '\n'

/-- The token `(`. -/
def openingAt (offset : Nat) : Token := ⟨.opening, "(", offset⟩

/-- The token `)`. -/
def closingAt (offset : Nat) : Token := ⟨.closing, ")", offset⟩

end Token

/-- The token that is being collected: its first byte and its characters, latest first. -/
inductive Pending where
  | nothing
  | word (start : Nat) (reversed : List Char)
  | bracketed (start : Nat) (reversed : List Char)
  deriving DecidableEq, Inhabited

namespace Pending

/-- The collected token, if there is one. -/
def token? : Pending → Option Token
  | .nothing => none
  | .word start reversed => some ⟨.word, String.ofList reversed.reverse, start⟩
  | .bracketed start reversed => some ⟨.bracketed, String.ofList reversed.reverse, start⟩

/-- The collected token ends here and comes before the given ones. -/
def before (pending : Pending) (tokens : List Token) : List Token :=
  pending.token?.toList ++ tokens

/-- A bracket that is still open. -/
def openBracket? : Pending → Option Nat
  | .bracketed start _ => some start
  | _ => none

/-- An ordinary character continues the word at hand or starts one at the given byte. -/
def push (pending : Pending) (offset : Nat) (c : Char) : Pending :=
  match pending with
  | .nothing => .word offset [c]
  | .word start reversed => .word start (c :: reversed)
  | .bracketed start reversed => .bracketed start (c :: reversed)

end Pending

/-- The tokens of a text, and the bracket that its end left open. -/
structure Lexed where
  tokens : List Token
  openBracket : Option Nat
  deriving DecidableEq, Inhabited

namespace Lexed

/-- Tokens that come before those of the rest of the text. -/
def after (tokens : List Token) (rest : Lexed) : Lexed :=
  { rest with tokens := tokens ++ rest.tokens }

/-- The only anomaly of tokens is a bracket left open. -/
def anomalies (lexed : Lexed) : List Anomaly :=
  (lexed.openBracket.map Anomaly.unterminatedBracket).toList

end Lexed

namespace Token

/-- Cut the characters from a byte on, with a token collected so far. -/
def scanFrom (offset : Nat) : Pending → List Char → Lexed
  | pending, [] => ⟨pending.before [], pending.openBracket?⟩
  | .bracketed start reversed, c :: chars =>
    let collected := Pending.bracketed start (c :: reversed)
    if c = ']' then
      .after (collected.before []) (scanFrom (offset + c.utf8Size) .nothing chars)
    else scanFrom (offset + c.utf8Size) collected chars
  | pending, c :: chars =>
    let next := offset + c.utf8Size
    if c = '[' then .after (pending.before []) (scanFrom next (.bracketed offset [c]) chars)
    else if c = '(' then
      .after (pending.before [openingAt offset]) (scanFrom next .nothing chars)
    else if c = ')' then
      .after (pending.before [closingAt offset]) (scanFrom next .nothing chars)
    else if isGap c then .after (pending.before []) (scanFrom next .nothing chars)
    else scanFrom next (pending.push offset c) chars

/-- The tokens of a text. -/
def scan (text : String) : Lexed := scanFrom 0 .nothing text.toList

end Token

end Menus
