/-!
# Glob patterns

A pattern is a sequence of pieces. Besides `?`, `*` and character classes there are alternates in
braces, which may be nested, and `**` as a whole path component, which stands for any number of
components. Where `**` is not a whole component it is two stars. A backslash takes the next
character as it stands.
-/

namespace Menus.Glob

/-- A piece of a pattern. -/
inductive Piece where
  /-- A character that stands for itself. -/
  | literal (c : Char)
  /-- One character, `?`. -/
  | any
  /-- Any number of characters, `*`. -/
  | star
  /-- Any directories at the start, `**/`. -/
  | leading
  /-- Any directories in between, `/**/`. -/
  | between
  /-- Everything in a directory, `/**`. -/
  | trailing
  /-- A character of a class, or one that is not of it; a range has both of its ends. -/
  | set (negated : Bool) (ranges : List (Char × Char))
  /-- One of several sequences, `{a,b}`. -/
  | choice (branches : List (List Piece))
  deriving Inhabited

/-- Why a text is not a pattern. -/
inductive PatternError where
  | unclosedClass
  | reversedRange (first last : Char)
  | unopenedChoice
  | unclosedChoice
  | danglingEscape
  deriving DecidableEq, Inhabited

/-- The wording of the reason. -/
def PatternError.reason : PatternError → String
  | .unclosedClass => "unclosed character class; missing ']'"
  | .reversedRange first last => s!"invalid range; '{first}' > '{last}'"
  | .unopenedChoice =>
    "unopened alternate group; missing '\x7b' (maybe escape '\x7d' with '[\x7d]'?)"
  | .unclosedChoice =>
    "unclosed alternate group; missing '\x7d' (maybe escape '\x7b' with '[\x7b]'?)"
  | .danglingEscape => "dangling '\\'"

/-- One level of braces: the branches that are complete and the one at hand, latest piece first.
The pattern itself is the outermost level. -/
structure Level where
  complete : List (List Piece) := []
  reversed : List Piece := []
  deriving Inhabited

namespace Level

/-- One more piece of the branch at hand. -/
def push (piece : Piece) (level : Level) : Level :=
  { level with reversed := piece :: level.reversed }

/-- The branch at hand is complete. -/
def nextBranch (level : Level) : Level := ⟨level.complete ++ [level.reversed.reverse], []⟩

/-- All branches, the one at hand being the last. -/
def close (level : Level) : Piece := .choice level.nextBranch.complete

/-- Another piece in place of the last one of the branch at hand. -/
def replaceLast (level : Level) (replace : Piece → Piece) : Level :=
  match level.reversed with
  | [] => level
  | last :: others => { level with reversed := replace last :: others }

end Level

/-- A character class as far as it was read. -/
structure ClassSoFar where
  negated : Bool
  /-- The ranges, latest first. -/
  reversed : List (Char × Char) := []
  /-- No character was read yet. -/
  isFresh : Bool := true
  /-- A hyphen was read that may become a range. -/
  inRange : Bool := false
  deriving Inhabited

namespace ClassSoFar

/-- A character that stands for itself, or closes a range. -/
def push (found : ClassSoFar) (c : Char) : Except PatternError ClassSoFar :=
  match found.inRange, found.reversed with
  | true, (first, _) :: others =>
    if c < first then .error (.reversedRange first c)
    else .ok ⟨found.negated, (first, c) :: others, false, false⟩
  | _, _ => .ok ⟨found.negated, (c, c) :: found.reversed, false, false⟩

/-- The class as it is closed. A hyphen at its end stands for itself. -/
def close (found : ClassSoFar) : Piece :=
  .set found.negated
    (found.reversed.reverse ++ if found.inRange then [('-', '-')] else [])

/-- Read a class up to its `]`, which stands for itself at the very start. Gives nothing when the
text ends first. -/
def read (found : ClassSoFar) : List Char → Except PatternError (Option (Piece × List Char))
  | [] => .ok none
  | c :: chars =>
    if c = ']' && !found.isFresh then .ok (some (found.close, chars))
    else if c = '-' && !found.isFresh && !found.inRange then
      read { found with inRange := true } chars
    else
      match found.push c with
      | .error error => .error error
      | .ok found => read found chars

end ClassSoFar

/-- Read a class after its `[`. -/
def readClass (chars : List Char) : Except PatternError (Option (Piece × List Char)) :=
  match chars with
  | '!' :: rest => ClassSoFar.read ⟨true, [], true, false⟩ rest
  | '^' :: rest => ClassSoFar.read ⟨true, [], true, false⟩ rest
  | rest => ClassSoFar.read ⟨false, [], true, false⟩ rest

/-- Where reading a pattern stands. -/
structure Progress where
  /-- The character before the next one. -/
  previous : Option Char := none
  /-- The level at hand. -/
  level : Level := {}
  /-- The levels around it, the nearest first. -/
  outer : List Level := []
  /-- A class was found without its end, so every later `[` stands for itself. -/
  bracketsPlain : Bool := false
  deriving Inhabited

namespace Progress

/-- One more piece, after the character `c`. -/
def push (progress : Progress) (piece : Piece) (c : Char) : Progress :=
  { progress with previous := some c, level := progress.level.push piece }

/-- What the second star of `**` stands for, before the given characters, which are given back
without the slash that belongs to the stars. -/
def pushStars (progress : Progress) (chars : List Char) : Progress × List Char :=
  let plain := ((progress.push .star '*').push .star '*', chars)
  if progress.level.reversed.isEmpty then
    match chars with
    | [] => (progress.push .leading '*', [])
    | '/' :: chars => (progress.push .leading '/', chars)
    | _ => plain
  else if progress.previous = some '/' ||
      (!progress.outer.isEmpty &&
        (progress.previous = some ',' || progress.previous = some '\x7b')) then
    let absorb (piece : Piece) (last : Piece) : Piece :=
      match last with
      | .leading => .leading
      | .trailing => .trailing
      | _ => piece
    let replace (piece : Piece) (c : Char) : Progress :=
      { progress with previous := some c, level := progress.level.replaceLast (absorb piece) }
    match chars with
    | [] => (replace .trailing '*', [])
    | '/' :: chars => (replace .between '/', chars)
    | c :: _ =>
      if !progress.outer.isEmpty && (c = ',' || c = '\x7d') then (replace .trailing '*', chars)
      else plain
  else plain

end Progress

/-- Read the pieces of a pattern. In a lenient reading a `[` without its `]` stands for itself.
Every step takes a character or turns brackets plain, so twice as many steps as characters and one
more are enough. -/
def readPieces (lenient : Bool) : Nat → Progress → List Char → Except PatternError (List Piece)
  | 0, _, _ => .ok []
  | steps + 1, progress, chars =>
    match chars with
    | [] =>
      if progress.outer.isEmpty then .ok progress.level.reversed.reverse
      else .error .unclosedChoice
    | '?' :: chars => readPieces lenient steps (progress.push .any '?') chars
    | '*' :: '*' :: chars =>
      let (progress, chars) := progress.pushStars chars
      readPieces lenient steps progress chars
    | '*' :: chars => readPieces lenient steps (progress.push .star '*') chars
    | '[' :: chars =>
      if progress.bracketsPlain then
        readPieces lenient steps (progress.push (.literal '[') '[') chars
      else
        match readClass chars with
        | .error error => .error error
        | .ok (some (piece, chars)) => readPieces lenient steps (progress.push piece ']') chars
        | .ok none =>
          if lenient then
            readPieces lenient steps { progress with bracketsPlain := true } ('[' :: chars)
          else .error .unclosedClass
    | '\x7b' :: chars =>
      readPieces lenient steps
        { progress with
          previous := some '\x7b', level := {}, outer := progress.level :: progress.outer } chars
    | '\x7d' :: chars =>
      match progress.outer with
      | [] => .error .unopenedChoice
      | around :: outer =>
        readPieces lenient steps
          { progress with
            previous := some '\x7d', level := around.push progress.level.close, outer := outer }
          chars
    | ',' :: chars =>
      if progress.outer.isEmpty then
        readPieces lenient steps (progress.push (.literal ',') ',') chars
      else
        readPieces lenient steps
          { progress with previous := some ',', level := progress.level.nextBranch } chars
    | '\\' :: [] => .error .danglingEscape
    | '\\' :: c :: chars => readPieces lenient steps (progress.push (.literal c) c) chars
    | c :: chars => readPieces lenient steps (progress.push (.literal c) c) chars

/-- The pieces of a pattern. -/
def parse (text : String) (lenient : Bool := false) : Except PatternError (List Piece) :=
  readPieces lenient (2 * text.length + 1) {} text.toList

end Menus.Glob
