import Menus.Glob.Pattern

/-!
# Matching paths against patterns

A pattern is matched against the bytes of a path. First its alternates are multiplied out, so that
what remains are sequences of steps that take one byte or any number of them; a path matches the
pattern when one of these sequences takes all of it.
-/

namespace Menus.Glob

/-- A step of a sequence, with the bytes that it takes. -/
inductive Step where
  /-- Exactly one byte. -/
  | one (takes : UInt8 → Bool)
  /-- Any number of bytes. -/
  | many (takes : UInt8 → Bool)

/-- Whether some bytes that are taken can be followed by what is tested afterwards. -/
def takesSome (takes : UInt8 → Bool) (afterwards : List UInt8 → Bool) : List UInt8 → Bool
  | [] => afterwards []
  | byte :: bytes =>
    afterwards (byte :: bytes) || takes byte && takesSome takes afterwards bytes

/-- Whether the steps take all of the bytes. -/
def takesAll : List Step → List UInt8 → Bool
  | [], bytes => bytes.isEmpty
  | .one _ :: _, [] => false
  | .one takes :: steps, byte :: bytes => takes byte && takesAll steps bytes
  | .many takes :: steps, bytes => takesSome takes (takesAll steps) bytes

/-- The byte of a slash. -/
def slash : UInt8 := 0x2F

/-- The bytes of a character. -/
def bytesOf (c : Char) : List UInt8 := c.toString.toUTF8.toList

/-- Exactly the bytes of a character. -/
def literalSteps (c : Char) : List Step := (bytesOf c).map fun byte => .one (· == byte)

/-- The byte ranges of a class. A character beyond ASCII contributes each of its bytes, and a range
goes from the last byte of its first character to the first byte of its last one. -/
def byteRanges (range : Char × Char) : List (UInt8 × UInt8) :=
  let first := bytesOf range.1
  let last := bytesOf range.2
  let single (byte : UInt8) := (byte, byte)
  if range.1 = range.2 then first.map single
  else
    first.dropLast.map single ++ [(first.getLast?.getD 0, last.headD 0)] ++ last.tail.map single

/-- Whether a byte belongs to a class. -/
def inClass (negated : Bool) (ranges : List (Char × Char)) (byte : UInt8) : Bool :=
  negated != (ranges.flatMap byteRanges).any fun (first, last) => first ≤ byte && byte ≤ last

mutual

/-- A piece that takes nothing whatever is chosen in it; as a branch it does not count. -/
def Piece.isVoid : Piece → Bool
  | .choice branches => allBranchesVoid branches
  | _ => false

/-- A sequence of such pieces. -/
def allVoid : List Piece → Bool
  | [] => true
  | piece :: pieces => piece.isVoid && allVoid pieces

/-- Branches that are all such sequences. -/
def allBranchesVoid : List (List Piece) → Bool
  | [] => true
  | branch :: branches => allVoid branch && allBranchesVoid branches

end

/-- Every sequence of the first list followed by every one of the second. -/
def followedBy (firsts seconds : List (List Step)) : List (List Step) :=
  firsts.flatMap fun first => seconds.map (first ++ ·)

mutual

/-- The sequences that a piece stands for. `free` are the bytes that `?` and `*` take. -/
def Piece.sequences (free : UInt8 → Bool) : Piece → List (List Step)
  | .literal c => [literalSteps c]
  | .any => [[.one free]]
  | .star => [[.many free]]
  | .leading => [[], [.many fun _ => true, .one (· == slash)]]
  | .between =>
    [[.one (· == slash)], [.one (· == slash), .many fun _ => true, .one (· == slash)]]
  | .trailing => [[.one (· == slash), .many fun _ => true]]
  | .set negated ranges => [[.one (inClass negated ranges)]]
  | .choice branches => if allBranchesVoid branches then [[]] else sequencesOfAny free branches

/-- The sequences that pieces one after the other stand for. -/
def sequencesOfAll (free : UInt8 → Bool) : List Piece → List (List Step)
  | [] => [[]]
  | piece :: pieces => followedBy (piece.sequences free) (sequencesOfAll free pieces)

/-- The sequences of the branches that take something. -/
def sequencesOfAny (free : UInt8 → Bool) : List (List Piece) → List (List Step)
  | [] => []
  | branch :: branches =>
    (if allVoid branch then [] else sequencesOfAll free branch) ++ sequencesOfAny free branches

end

/-- The sequences of a whole pattern. A pattern of any directories only takes every path. -/
def sequencesOf (free : UInt8 → Bool) (pieces : List Piece) : List (List Step) :=
  match pieces with
  | [.leading] => [[.many fun _ => true]]
  | pieces => sequencesOfAll free pieces

/-- Whether a text matches a pattern. With `slashesApart`, `?` and `*` do not take slashes. -/
def isMatch (pieces : List Piece) (text : String) (slashesApart : Bool := false) : Bool :=
  let free (byte : UInt8) : Bool := !(slashesApart && byte == slash)
  (sequencesOf free pieces).any fun steps => takesAll steps text.toUTF8.toList

end Menus.Glob
