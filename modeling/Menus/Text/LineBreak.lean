/-!
# Line breaks

Lines end with a line feed, or with a carriage return and a line feed. Reading knows only the
first form and writing can produce both. A carriage return that stands alone is an ordinary
character.
-/

namespace Menus

/-- The line breaks that a document is written with. -/
inductive LineEnding where
  /-- Those of the text that was read: its first line break decides. -/
  | auto
  /-- Line feeds. -/
  | lf
  /-- Carriage returns with line feeds. -/
  | crlf
  deriving DecidableEq, Inhabited, Repr

/-- Every carriage return that is followed by a line feed is dropped. -/
def toLf : List Char → List Char
  | [] => []
  | '\r' :: '\n' :: chars => '\n' :: toLf chars
  | c :: chars => c :: toLf chars

/-- Every line feed gets a carriage return before it. -/
def toCrlf : List Char → List Char
  | [] => []
  | c :: chars => if c = '\n' then '\r' :: '\n' :: toCrlf chars else c :: toCrlf chars

/-- Whether the first line feed comes after a carriage return. `afterReturn` says whether the
character before the given ones is a carriage return. -/
def firstBreakIsCrlf (afterReturn : Bool) : List Char → Bool
  | [] => false
  | c :: chars => if c = '\n' then afterReturn else firstBreakIsCrlf (c = '\r') chars

namespace LineEnding

/-- Whether a text that was read is written with carriage returns. -/
def usesCrlf (ending : LineEnding) (text : String) : Bool :=
  match ending with
  | .auto => firstBreakIsCrlf false text.toList
  | .lf => false
  | .crlf => true

end LineEnding

end Menus
