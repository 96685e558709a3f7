import Menus.Path

/-!
# Settings for repositories

A user can name a file with rules for all repositories. It is looked for in a settings file as the
first line that sets it, wherever that line stands; the sections of the file do not matter.
-/

namespace Menus.GitSettings

/-- A blank byte, line feeds included. -/
def isBlankByte (byte : UInt8) : Bool := byte = 0x20 || (0x09 ≤ byte && byte ≤ 0x0D)

/-- A byte with a capital letter made small. -/
def toLowerByte (byte : UInt8) : UInt8 :=
  if 0x41 ≤ byte && byte ≤ 0x5A then byte + 0x20 else byte

/-- Whether a line ends after blanks. -/
def endsLine (bytes : List UInt8) : Bool :=
  (bytes.takeWhile isBlankByte).contains 0x0A || bytes.all isBlankByte

/-- Whether a line ends after blanks and perhaps a quotation mark among them. -/
def endsValue (bytes : List UInt8) : Bool :=
  endsLine bytes ||
    match bytes.dropWhile isBlankByte with
    | 0x22 :: rest => endsLine rest
    | _ => false

/-- The shortest word at the start of some bytes that is the last one of its line. -/
def lastWord? (bytes : List UInt8) : Option (List UInt8) :=
  let word := bytes.takeWhile (!isBlankByte ·)
  ((List.range word.length).find? fun count => endsValue (bytes.drop (count + 1))).map
    fun count => word.take (count + 1)

/-- The value after an equals sign, perhaps with quotation marks around it. -/
def value? (bytes : List UInt8) : Option (List UInt8) :=
  match bytes.dropWhile isBlankByte with
  | 0x3D :: rest =>
    match rest.dropWhile isBlankByte with
    | 0x22 :: quoted =>
      (lastWord? (quoted.dropWhile isBlankByte)).or (lastWord? (0x22 :: quoted))
    | word => lastWord? word
  | _ => none

/-- The value that the line at the start of some bytes sets, if it is the one for the file. -/
def excludesFileHere? (bytes : List UInt8) : Option (List UInt8) :=
  let key := "excludesfile".toUTF8.toList
  let line := bytes.dropWhile isBlankByte
  if (line.take key.length).map toLowerByte = key then value? (line.drop key.length) else none

/-- What comes after each line feed. -/
def afterLineFeeds : List UInt8 → List (List UInt8)
  | [] => []
  | byte :: bytes =>
    if byte = 0x0A then bytes :: afterLineFeeds bytes else afterLineFeeds bytes

/-- The file for rules that some settings name, if its name is text. -/
def excludesFile? (bytes : List UInt8) : Option String :=
  ((bytes :: afterLineFeeds bytes).findSome? excludesFileHere?).bind fun word =>
    String.fromUTF8? word.toByteArray

/-- A text with the home directory in place of tildes. -/
def expandHome (home : Option Path) (text : String) : String :=
  match home with
  | none => text
  | some directory =>
    String.join (text.toList.map fun c => if c = '~' then directory.text else c.toString)

end Menus.GitSettings
