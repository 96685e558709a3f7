import Menus.Text.Invisible

/-!
# Quoted texts

Two ways to write any text between double quotes: for a reader, where a character that cannot be
shown is named by its number, and for JSON.
-/

namespace Menus

/-- A number in lower-case hexadecimal digits, at least `width` of them. -/
def hexDigits (width value : Nat) : String :=
  let digits := Nat.toDigits 16 value
  String.ofList (List.replicate (width - digits.length) '0' ++ digits)

/-- A character between the quotes of a text for a reader. -/
def displayedChar (c : Char) : String :=
  if c = '\x00' then "\\0"
  else if c = '\t' then "\\t"
  else if c = '\n' then "\\n"
  else if c = '\r' then "\\r"
  else if c = '"' then "\\\""
  else if c = '\\' then "\\\\"
  else if c.toNat < 0x20 || isInvisible c then "\\u\x7b" ++ hexDigits 1 c.toNat ++ "\x7d"
  else c.toString

/-- A text for a reader. -/
def displayedText (text : String) : String :=
  "\"" ++ String.join (text.toList.map displayedChar) ++ "\""

/-- A character between the quotes of a JSON string: only quotes, backslashes and control
characters are escaped. -/
def jsonChar (c : Char) : String :=
  if c = '"' then "\\\""
  else if c = '\\' then "\\\\"
  else if c = '\x08' then "\\b"
  else if c = '\x0c' then "\\f"
  else if c = '\n' then "\\n"
  else if c = '\r' then "\\r"
  else if c = '\t' then "\\t"
  else if c.toNat < 0x20 then "\\u" ++ hexDigits 4 c.toNat
  else c.toString

/-- A JSON string. -/
def jsonText (text : String) : String :=
  "\"" ++ String.join (text.toList.map jsonChar) ++ "\""

end Menus
