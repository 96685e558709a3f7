/-!
# Paths

A path is kept as it was written, because it is shown that way: empty segments and dots included.
What it means is its list of components, in which those segments do not occur. Paths are compared,
ordered and stripped by components.
-/

namespace Menus

/-- A step of a path. -/
inductive Component where
  /-- The top of the file tree. -/
  | top
  /-- The directory one is in; only a path that starts with a dot has it. -/
  | here
  /-- The directory above. -/
  | up
  /-- A named entry. -/
  | name (text : String)
  deriving DecidableEq, Inhabited

namespace Component

/-- Components of different kinds are ordered by this number. -/
def rank : Component → Nat
  | .top => 0
  | .here => 1
  | .up => 2
  | .name _ => 3

/-- The order of components: by kind, and names by their characters. -/
def precedes (first second : Component) : Bool :=
  match first, second with
  | .name s, .name t => s < t
  | _, _ => first.rank < second.rank

end Component

/-- A path as it is written: whether it starts with `/`, and the pieces between the other
slashes. -/
structure Path where
  rooted : Bool
  segments : List String
  deriving DecidableEq, Inhabited

/-- The pieces of a text between its slashes. -/
def splitSlashes : List Char → List (List Char)
  | [] => [[]]
  | c :: chars =>
    if c = '/' then [] :: splitSlashes chars
    else
      match splitSlashes chars with
      | [] => [[c]]
      | piece :: pieces => (c :: piece) :: pieces

/-- A segment that leads nowhere. -/
def isIdleSegment (segment : String) : Bool := segment = "" || segment = "."

/-- What a segment that leads somewhere stands for. -/
def Component.ofSegment (segment : String) : Component :=
  if segment = ".." then .up else .name segment

namespace Path

/-- The path that a text writes. -/
def ofText (text : String) : Path :=
  match text.toList with
  | '/' :: chars => ⟨true, (splitSlashes chars).map String.ofList⟩
  | chars => ⟨false, (splitSlashes chars).map String.ofList⟩

/-- The text of a path. -/
def text (path : Path) : String :=
  (if path.rooted then "/" else "") ++ "/".intercalate path.segments

/-- The path without text. -/
def empty : Path := ⟨false, []⟩

/-- A path that is written with nothing at all. -/
def isEmpty (path : Path) : Bool := !path.rooted && (path.segments = [] || path.segments = [""])

/-- Whether a path starts with a lone dot, which is then its first component. -/
def startsHere (path : Path) : Bool := !path.rooted && path.segments.head? = some "."

/-- The components of the segments that lead somewhere. -/
def steps (segments : List String) : List Component :=
  (segments.filter (!isIdleSegment ·)).map Component.ofSegment

/-- The components of a path. -/
def components (path : Path) : List Component :=
  (if path.rooted then [.top] else if path.startsHere then [.here] else []) ++ steps path.segments

/-- Whether a walk takes a path for the standard input: a hyphen is its only component. -/
def isStandardInput (path : Path) : Bool := path.components = [.name "-"]

/-- Without the segments at the end that lead nowhere. -/
def trimEnd (path : Path) : Path :=
  match (path.segments.reverse.dropWhile isIdleSegment).reverse with
  | [] => { path with segments := if path.startsHere then ["."] else [] }
  | kept => { path with segments := kept }

/-- Whether a path is written with a slash at its end. -/
def endsInSlash (path : Path) : Bool :=
  path.segments.getLast? = some "" && (path.rooted || 1 < path.segments.length)

/-- Without the slashes at the end. -/
def dropSlashes (path : Path) : Path :=
  { path with segments := (path.segments.reverse.dropWhile (· = "")).reverse }

/-- The path without its last component; the top and the empty path have no parent. -/
def parent? (path : Path) : Option Path :=
  match path.trimEnd.segments with
  | [] => none
  | segments => some ({ path with segments := segments.dropLast } : Path).trimEnd

/-- The directory that the end of a path is in, which is written with a dot where the path does not
name it. -/
def holder (path : Path) : Path :=
  match path.parent? with
  | some parent => if parent.isEmpty then ⟨false, ["."]⟩ else parent
  | none => ⟨false, ["."]⟩

/-- The name at the end of a path, unless it ends with a dot or two. -/
def fileName? (path : Path) : Option String :=
  match path.components.getLast? with
  | some (.name text) => some text
  | _ => none

/-- Take components off the front of some segments. -/
def stripSteps : List Component → List String → Option (List String)
  | [], segments => some (segments.dropWhile isIdleSegment)
  | step :: others, segments =>
    match segments.dropWhile isIdleSegment with
    | [] => none
    | segment :: segments =>
      if Component.ofSegment segment = step then stripSteps others segments else none

/-- What remains of a path after a base whose components it starts with. -/
def strip? (path base : Path) : Option Path :=
  match base.components with
  | [] => some path.trimEnd
  | .top :: others =>
    if path.rooted then (stripSteps others path.segments).map fun rest => trimEnd ⟨false, rest⟩
    else none
  | .here :: others =>
    if path.startsHere then
      (stripSteps others path.segments.tail).map fun rest => trimEnd ⟨false, rest⟩
    else none
  | others =>
    if path.rooted || path.startsHere then none
    else (stripSteps others path.segments).map fun rest => trimEnd ⟨false, rest⟩

/-- Whether the components of a path start with those of another. -/
def startsWith (path base : Path) : Bool := base.components.isPrefixOf path.components

/-- A path taken from a directory on; a rooted path is taken as it is. An empty path leaves its
slash behind. -/
def join (directory path : Path) : Path :=
  if path.rooted then path
  else
    let base :=
      if directory.segments.getLast? = some "" then directory.segments.dropLast
      else directory.segments
    { directory with segments := base ++ if path.isEmpty then [""] else path.segments }

/-- An entry of a directory. -/
def child (directory : Path) (name : String) : Path := directory.join ⟨false, [name]⟩

/-- The first so many parents of a path, from the path itself upwards. -/
def ancestorsUpTo : Nat → Path → List Path
  | 0, path => [path]
  | count + 1, path =>
    match path.parent? with
    | none => [path]
    | some parent => path :: ancestorsUpTo count parent

/-- A path, its parent, the parent of that, and so on. -/
def ancestors (path : Path) : List Path := ancestorsUpTo path.segments.length path

/-- A list of components comes before another when it is a beginning of it or is smaller at the
first place where they differ. -/
def precedesBy : List Component → List Component → Bool
  | _, [] => false
  | [], _ :: _ => true
  | first :: firsts, second :: seconds =>
    if first = second then precedesBy firsts seconds else first.precedes second

/-- The order of paths, by their components. -/
def precedes (first second : Path) : Bool := precedesBy first.components second.components

/-- Two spellings of the same components. -/
def sameAs (first second : Path) : Bool := first.components = second.components

/-- Paths in their order; those with the same components keep theirs. -/
def inOrder (paths : List Path) : List Path :=
  paths.mergeSort fun first second => !second.precedes first

/-- Of neighbours with the same components only the first. -/
def dropRepeats : List Path → List Path
  | [] => []
  | path :: paths =>
    match dropRepeats paths with
    | [] => [path]
    | next :: others => if path.sameAs next then path :: others else path :: next :: others

/-- Whether a rooted path starts with exactly two slashes. -/
def doublesTop (path : Path) : Bool :=
  path.rooted &&
    match path.segments with
    | "" :: "" :: _ :: _ => false
    | "" :: _ :: _ => true
    | _ => false

/-- The path as it is found from a working directory, without the segments that lead nowhere. Steps
upwards stay, and so does a slash at the end. An empty path has none. -/
def absolute? (path workingDirectory : Path) : Option Path :=
  if path.isEmpty then none
  else
    let base : Path :=
      if path.rooted then ⟨true, if path.doublesTop then ["", ""] else [""]⟩ else workingDirectory
    let rest :=
      path.segments.filter (!isIdleSegment ·) ++ if path.endsInSlash then [""] else []
    some (if rest = [] then base else base.join ⟨false, rest⟩)

end Path

end Menus
