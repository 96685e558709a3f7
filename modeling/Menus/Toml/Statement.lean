import Menus.Toml.Scalar

/-!
# Statements of a TOML text

A text is a sequence of lines that name a table or give a value to a key. This file reads those
lines; what they build together is the matter of the tables. A text with a single mistake has no
statements at all.
-/

namespace Menus.Toml

/-- How a table came about, which decides what may be added to it later. -/
inductive Origin where
  /-- It has a line of its own, `[table]`, or is the whole text. -/
  | header
  /-- It only occurs in the line of a table below it. -/
  | implied
  /-- It was made by a key with dots. -/
  | dotted
  /-- It is written between braces and is complete. -/
  | inline
  deriving DecidableEq, Inhabited

/-- A value. -/
inductive Value where
  | text (value : String)
  | boolean (value : Bool)
  /-- A number, a date or a time; no setting has such a value. -/
  | unquoted
  /-- A list; `ofTables` says that its tables have lines of their own, `[[table]]`. -/
  | list (ofTables : Bool) (items : List Value)
  | table (origin : Origin) (entries : List (String × Value))
  deriving Inhabited

/-- A line of a text. -/
inductive Statement where
  /-- `[key.key]`. -/
  | header (path : List String)
  /-- `[[key.key]]`. -/
  | listHeader (path : List String)
  /-- `key.key = value`. -/
  | assign (path : List String) (value : Value)
  deriving Inhabited

/-- The entries of a table. -/
abbrev Entries := List (String × Value)

/-- A way to read a value off the front of some characters. -/
abbrev Reads (α : Type) := List Char → Option (α × List Char)

/-- A blank that does not end a line. -/
def isSpace (c : Char) : Bool := c = ' ' || c = '\t'

/-- A character that a comment or a text on one line can hold as it is. -/
def isVisible (c : Char) : Bool := c = '\t' || (0x20 ≤ c.toNat && c.toNat ≠ 0x7F)

/-- Without the blanks at the front. -/
def skipSpace (chars : List Char) : List Char := chars.dropWhile isSpace

/-- Without the blanks, line breaks and comments at the front. -/
def skipFiller (inComment : Bool) : List Char → List Char
  | '\n' :: chars => skipFiller false chars
  | '\r' :: '\n' :: chars => skipFiller false chars
  | [] => []
  | c :: chars =>
    if inComment then if isVisible c then skipFiller true chars else c :: chars
    else if isSpace c then skipFiller false chars
    else if c = '#' then skipFiller true chars
    else c :: chars

/-- What comes after the end of a line, at which there may be a comment. -/
def endLine? (chars : List Char) : Option (List Char) :=
  let chars := skipSpace chars
  let chars := if chars.head? = some '#' then chars.dropWhile isVisible else chars
  match chars with
  | [] => some []
  | '\n' :: chars => some chars
  | '\r' :: '\n' :: chars => some chars
  | _ => none

/-- A character by its number in so many hexadecimal digits. -/
def takeCharCode (count : Nat) : Reads Char := fun chars =>
  let digits := chars.take count
  let code := numberOf 16 digits
  if digits.length = count && digits.all (isDigitOf 16) && code.isValidChar then
    some (Char.ofNat code, chars.drop count)
  else none

/-- What a backslash and the characters after it stand for. -/
def takeEscape : Reads Char
  | 'b' :: chars => some ('\x08', chars)
  | 't' :: chars => some ('\t', chars)
  | 'n' :: chars => some ('\n', chars)
  | 'f' :: chars => some ('\x0c', chars)
  | 'r' :: chars => some ('\r', chars)
  | 'e' :: chars => some ('\x1b', chars)
  | '"' :: chars => some ('"', chars)
  | '\\' :: chars => some ('\\', chars)
  | 'x' :: chars => takeCharCode 2 chars
  | 'u' :: chars => takeCharCode 4 chars
  | 'U' :: chars => takeCharCode 8 chars
  | _ => none

/-- A character in front of what is read next. -/
def consTo (c : Char) (read : Option (List Char × List Char)) : Option (List Char × List Char) :=
  read.map fun (text, rest) => (c :: text, rest)

/-- A text on one line up to its closing quote; only between double quotes there are escapes. A
character is taken at every step. -/
def takeLine (quote : Char) : Nat → Reads (List Char)
  | 0, _ => none
  | _, [] => none
  | steps + 1, c :: chars =>
    if c = quote then some ([], chars)
    else if c = '\\' && quote = '"' then
      match takeEscape chars with
      | none => none
      | some (escaped, chars) => consTo escaped (takeLine quote steps chars)
    else if isVisible c then consTo c (takeLine quote steps chars)
    else none

/-- Whether the rest of a line is blank and the line ends. -/
def isBlankToBreak (chars : List Char) : Bool :=
  match skipSpace chars with
  | '\n' :: _ => true
  | '\r' :: '\n' :: _ => true
  | _ => false

/-- Without the blanks and line breaks at the front. -/
def skipBlankLines : List Char → List Char
  | '\n' :: chars => skipBlankLines chars
  | '\r' :: '\n' :: chars => skipBlankLines chars
  | c :: chars => if isSpace c then skipBlankLines chars else c :: chars
  | [] => []

/-- A text on several lines up to its three closing quotes, before which up to two more belong to
the text. A backslash at the end of a line takes out the blanks up to the next character. -/
def takeLines (quote : Char) : Nat → Reads (List Char)
  | 0, _ => none
  | _, [] => none
  | steps + 1, c :: chars =>
    if c = quote then
      let run := min 5 ((c :: chars).takeWhile (· = quote)).length
      if 3 ≤ run then some (List.replicate (run - 3) quote, (c :: chars).drop run)
      else consTo c (takeLines quote steps chars)
    else if c = '\\' && quote = '"' then
      if isBlankToBreak chars then takeLines quote steps (skipBlankLines chars)
      else
        match takeEscape chars with
        | none => none
        | some (escaped, chars) => consTo escaped (takeLines quote steps chars)
    else if isVisible c || c = '\n' || (c = '\r' && chars.head? = some '\n') then
      consTo c (takeLines quote steps chars)
    else none

/-- Without one line break at the front. -/
def skipBreak : List Char → List Char
  | '\n' :: chars => chars
  | '\r' :: '\n' :: chars => chars
  | chars => chars

/-- A text in quotes, which are single or double, on one line or three for several lines. -/
def takeText (chars : List Char) : Option (String × List Char) :=
  match chars with
  | quote :: rest =>
    if quote = '"' || quote = '\'' then
      let read :=
        if rest.take 2 = [quote, quote] then takeLines quote chars.length (skipBreak (rest.drop 2))
        else takeLine quote chars.length rest
      read.map fun (text, rest) => (String.ofList text, rest)
    else none
  | [] => none

/-- A character of a key without quotes. -/
def isKeyChar (c : Char) : Bool := c.isAlphanum || c = '_' || c = '-'

/-- One key, with or without quotes. -/
def takeKey (chars : List Char) : Option (String × List Char) :=
  match chars with
  | [] => none
  | c :: rest =>
    if c = '"' || c = '\'' then
      (takeLine c chars.length rest).map fun (text, rest) => (String.ofList text, rest)
    else if isKeyChar c then
      some (String.ofList (chars.takeWhile isKeyChar), chars.dropWhile isKeyChar)
    else none

/-- Keys with dots between them. A key is taken at every step. -/
def takePath : Nat → Reads (List String)
  | 0, _ => none
  | steps + 1, chars =>
    match takeKey (skipSpace chars) with
    | none => none
    | some (key, chars) =>
      match skipSpace chars with
      | '.' :: chars => (takePath steps chars).map fun (keys, rest) => (key :: keys, rest)
      | chars => some ([key], chars)

/-- A boolean, a number, a date or a time. Only a date may be followed by a blank that belongs to
it, and then a time comes next. -/
def takeUnquoted (chars : List Char) : Option (Value × List Char) :=
  let word := chars.takeWhile isScalarChar
  let rest := chars.dropWhile isScalarChar
  let (word, rest) :=
    match afterDate? word, rest with
    | some [], ' ' :: c :: others =>
      if c.isDigit then
        (word ++ ' ' :: (c :: others).takeWhile isScalarChar, (c :: others).dropWhile isScalarChar)
      else (word, rest)
    | _, _ => (word, rest)
  if word = "true".toList then some (.boolean true, rest)
  else if word = "false".toList then some (.boolean false, rest)
  else if isUnquoted word then some (.unquoted, rest)
  else none

/-! ### Adding to tables -/

/-- The value of a key. -/
def Entries.get? (entries : Entries) (key : String) : Option Value := entries.lookup key

/-- Another value for a key that is there. -/
def Entries.set (entries : Entries) (key : String) (value : Value) : Entries :=
  entries.map fun entry => if entry.1 = key then (key, value) else entry

/-- The last table of a list of tables, changed. -/
def changeLast (change : Origin → Entries → Option Value) : List Value → Option (List Value)
  | [] => none
  | [.table origin entries] => (change origin entries).map ([·])
  | [_] => none
  | item :: items => (changeLast change items).map (item :: ·)

/-- Walk down from a table by some keys and change the table that is reached. Tables on the way are
made where they are missing; `viaDots` says that the keys come from a key with dots, which may only
pass through tables that have no line of their own. -/
def changeTable (viaDots : Bool) (change : Origin → Entries → Option Value) :
    List String → Origin → Entries → Option Value
  | [], origin, entries => change origin entries
  | key :: path, origin, entries => do
    match entries.get? key with
    | none =>
      let made ← changeTable viaDots change path (if viaDots then .dotted else .implied) []
      return .table origin (entries ++ [(key, made)])
    | some (.table below inner) =>
      if below = .inline || (viaDots && below = .header) then none
      else
        let changed ← changeTable viaDots change path below inner
        return .table origin (entries.set key changed)
    | some (.list true items) =>
      let changed ← changeLast (changeTable viaDots change path) items
      return .table origin (entries.set key (.list true changed))
    | some _ => none

/-- Give a value to a key that has none. A key with dots adds only to a table that such keys have
made. -/
def addKey (hasDots : Bool) (key : String) (value : Value) (origin : Origin) (entries : Entries) :
    Option Value :=
  if (origin = .dotted) != hasDots || (entries.get? key).isSome then none
  else some (.table origin (entries ++ [(key, value)]))

/-- Give a value to a key, which may have dots, within a table. -/
def assignKey (path : List String) (value : Value) (origin : Origin) (entries : Entries) :
    Option Value :=
  match path.getLast? with
  | none => none
  | some key =>
    changeTable true (addKey (1 < path.length) key value) path.dropLast origin entries

/-! ### Reading values and lines -/

mutual

/-- A value. Lists and tables may be nested `depth` levels deep. -/
def takeValue (depth : Nat) : Nat → Reads Value
  | 0, _ => none
  | steps + 1, chars =>
    match chars with
    | [] => none
    | c :: rest =>
      if c = '"' || c = '\'' then (takeText chars).map fun (text, rest) => (.text text, rest)
      else if c = '[' then
        match depth with
        | 0 => none
        | depth + 1 => takeItems depth steps [] rest
      else if c = '\x7b' then
        match depth with
        | 0 => none
        | depth + 1 => takeEntries depth steps [] rest
      else takeUnquoted chars

/-- The items of a list after those that were read, up to its closing bracket. -/
def takeItems (depth : Nat) : Nat → List Value → Reads Value
  | 0, _, _ => none
  | steps + 1, items, chars =>
    match skipFiller false chars with
    | ']' :: rest => some (.list false items, rest)
    | chars =>
      match takeValue depth steps chars with
      | none => none
      | some (item, chars) =>
        match skipFiller false chars with
        | ',' :: rest => takeItems depth steps (items ++ [item]) rest
        | ']' :: rest => some (.list false (items ++ [item]), rest)
        | _ => none

/-- The entries of a table between braces after those that were read, up to its closing brace. -/
def takeEntries (depth : Nat) : Nat → Entries → Reads Value
  | 0, _, _ => none
  | steps + 1, entries, chars =>
    match skipFiller false chars with
    | '\x7d' :: rest => some (.table .inline entries, rest)
    | chars =>
      match takePath chars.length chars with
      | some (path, '=' :: chars) =>
        match takeValue depth steps (skipSpace chars) with
        | none => none
        | some (value, chars) =>
          match assignKey path value .inline entries with
          | some (.table _ entries) =>
            match skipFiller false chars with
            | ',' :: rest => takeEntries depth steps entries rest
            | '\x7d' :: rest => some (.table .inline entries, rest)
            | _ => none
          | _ => none
      | _ => none

end

/-- The deepest nesting of lists and of tables between braces. -/
def maxNesting : Nat := 80

/-- One statement at the start of a line. -/
def takeStatement (chars : List Char) : Option (Statement × List Char) :=
  match chars with
  | '[' :: '[' :: chars =>
    match takePath chars.length chars with
    | some (path, ']' :: ']' :: rest) => some (.listHeader path, rest)
    | _ => none
  | '[' :: chars =>
    match takePath chars.length chars with
    | some (path, ']' :: rest) => some (.header path, rest)
    | _ => none
  | chars =>
    match takePath chars.length chars with
    | some (path, '=' :: rest) =>
      (takeValue maxNesting (2 * rest.length + 1) (skipSpace rest)).map fun (value, rest) =>
        (.assign path value, rest)
    | _ => none

/-- The statements of some lines. A line is taken at every step. -/
def takeStatements : Nat → List Char → Option (List Statement)
  | 0, _ => none
  | steps + 1, chars =>
    match skipFiller false chars with
    | [] => some []
    | chars =>
      match takeStatement chars with
      | none => none
      | some (statement, rest) =>
        match endLine? rest with
        | none => none
        | some rest => (takeStatements steps rest).map (statement :: ·)

/-- The statements of a text, which may start with a byte order mark. -/
def statements? (text : String) : Option (List Statement) :=
  let chars := text.toList
  let chars := if chars.head? = some '\uFEFF' then chars.tail else chars
  takeStatements (chars.length + 1) chars

end Menus.Toml
