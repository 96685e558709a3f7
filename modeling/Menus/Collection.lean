import Menus.Document
import Menus.IgnoreRules
import Menus.Selection

/-!
# Collecting menu documents

Files and directories are given; the files are documents whatever they are called, and directories
are walked for documents. All documents share one root, the deepest directory that the given
directories and the parents of the given files are all in, so that no two documents have the same
path from there.
-/

namespace Menus

/-- Why a directory cannot be walked. -/
inductive WalkError where
  /-- It is not there. -/
  | file (error : FileError)
  /-- Ignore files above it have lines that cannot be read. -/
  | rules (faults : List RuleFault)
  deriving DecidableEq, Inhabited

/-- The wording shown to a user. -/
def WalkError.message (path : Path) : WalkError → String
  | .file error =>
    path.text ++ ": IO error for operation on " ++ path.text ++ ": " ++ error.message
  | .rules faults => "\n".intercalate (faults.map RuleFault.message)

/-- Why something could not be done with files. -/
inductive RunError where
  /-- Reading, writing or copying failed. -/
  | file (path : Path) (error : FileError)
  /-- A document gives no text. -/
  | document (path : Path) (error : DocumentError)
  /-- A pattern of the settings cannot be read. -/
  | pattern (failure : PatternFailure)
  /-- A directory cannot be walked. -/
  | walk (path : Path) (error : WalkError)
  deriving DecidableEq, Inhabited

/-- The wording shown to a user. -/
def RunError.message : RunError → String
  | .file path error => path.text ++ ": " ++ error.message
  | .document path error => path.text ++ ": " ++ error.message
  | .pattern failure => "invalid pattern: " ++ failure.message
  | .walk path error => "directory walk failed: " ++ error.message path

/-- A menu document, with the root it was found under. -/
structure MenuDocument where
  root : Path
  path : Path
  deriving DecidableEq, Inhabited

namespace MenuDocument

/-- The path from the root, which decides where a copy goes. -/
def relative (document : MenuDocument) : Path :=
  (document.path.strip? document.root).getD document.path

/-- The name of the directory that holds the document. -/
def name (document : MenuDocument) : String :=
  (document.path.parent?.bind Path.fileName?).getD document.path.text

end MenuDocument

/-- The deepest directory that a path and all of the others are in. -/
def commonAncestor? (path : Path) : List Path → Option Path
  | [] => some path
  | other :: others =>
    (path.ancestors.find? other.startsWith).bind fun common => commonAncestor? common others

/-- What one given path leads to: a directory that becomes part of the common root, and files. -/
def collectFrom (tree : FileTree) (surroundings : Surroundings) (settings : Settings)
    (selection : Selection) (path : Path) : Except RunError (Path × List Path) :=
  if tree.isFile surroundings.workingDirectory path then .ok (path.parent?.getD .empty, [path])
  else
    match tree.locate surroundings.workingDirectory path with
    | .error error => .error (.walk path (.file error))
    | .ok location =>
      if tree.at? location = none then .error (.walk path (.file .missing))
      else
        match tree.walk surroundings path location settings.respectIgnoreFiles with
        | .error faults => .error (.walk path (.rules faults))
        | .ok found =>
          let files := found.map fun names => names.foldl Path.child path
          .ok (path, files.filter (selection.selects path))

/-- What the given paths lead to, each made absolute first. -/
def collectFromAll (tree : FileTree) (surroundings : Surroundings) (top : Path)
    (settings : Settings) (selection : Selection) :
    List Path → Except RunError (List (Path × List Path))
  | [] => .ok []
  | path :: paths =>
    match path.absolute? top with
    | none => .error (.file path .emptyPath)
    | some absolute => do
      let found ← collectFrom tree surroundings settings selection absolute
      return found :: (← collectFromAll tree surroundings top settings selection paths)

/-- The documents that some paths lead to when some patterns select them, in the order of their
paths and each once. -/
def collectSelected (tree : FileTree) (surroundings : Surroundings) (settings : Settings)
    (selection : Selection) (paths : List Path) : Except RunError (List MenuDocument) := do
  let found ← collectFromAll tree surroundings surroundings.path settings selection paths
  let root :=
    match found.map Prod.fst with
    | [] => none
    | first :: others => commonAncestor? first others
  return (Path.dropRepeats (Path.inOrder (found.flatMap Prod.snd))).map fun path =>
    ⟨root.getD .empty, path⟩

/-- The documents that some paths lead to with the patterns of some settings. -/
def collect (tree : FileTree) (surroundings : Surroundings) (settings : Settings)
    (paths : List Path) : Except RunError (List MenuDocument) := do
  let selection ← (Selection.ofSettings settings).mapError .pattern
  collectSelected tree surroundings settings selection paths

end Menus
