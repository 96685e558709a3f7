import Menus.Collection
import Menus.Disk

/-!
# Runs over documents

A run reduces every document by itself and, unless it only checks, writes those that change. When
there is a directory for backups, a document is copied there before it is first written, and a copy
that is there already is never replaced. Restoring copies everything in such a directory back.

Every operation gives its result together with the file tree it leaves, also when it fails. What is
done with one document can fail at every step at which the disk refuses it; the disk refuses nothing
where none is named. Whether something is at the end of a path is known without the disk.
-/

namespace Menus

/-- What a run does with a document that changes. -/
inductive RunMode where
  /-- It is written. -/
  | write
  /-- It is only reported. -/
  | check
  deriving DecidableEq, Inhabited

/-- What a run made of a document. -/
inductive Outcome where
  /-- There is nothing in it. -/
  | skipped
  | unchanged
  | modified (before reduced : String)
  deriving DecidableEq, Inhabited

/-- Make the directories that a target is to be in. -/
def makeRoom (tree : FileTree) (workingDirectory : Location) (target : Path)
    (disk : Disk := .sound) : Except RunError Unit × FileTree :=
  match target.parent? with
  | none => (.ok (), tree)
  | some parent =>
    match disk.fault? .makeDirectories parent with
    | some fault =>
      (.error (.file parent fault.error),
        tree.makeDirectoriesPart workingDirectory parent fault.progress)
    | none =>
      let (result, tree) := tree.makeDirectories workingDirectory parent
      (result.mapError (.file parent), tree)

/-- Copy a file to a target, for which directories are made. -/
def copyInto (tree : FileTree) (workingDirectory : Location) (source target : Path)
    (disk : Disk := .sound) : Except RunError Unit × FileTree :=
  match makeRoom tree workingDirectory target disk with
  | (.error error, tree) => (.error error, tree)
  | (.ok (), tree) =>
    match disk.fault? .copy target with
    | some fault =>
      (.error (.file target fault.error),
        tree.copyPart workingDirectory source target fault.progress)
    | none =>
      match tree.copy workingDirectory source target with
      | .error error => (.error (.file target error), tree)
      | .ok copied => (.ok (), copied)

/-- Copy a document into a backup directory, unless something is there already. Gives whether a
copy was made. -/
def backUp (tree : FileTree) (workingDirectory : Location) (document : MenuDocument)
    (directory : Path) (disk : Disk := .sound) : Except RunError Bool × FileTree :=
  match document.path.strip? document.root with
  | none => (.error (.file document.path .outsideRoot), tree)
  | some relative =>
    let target := directory.join relative
    if tree.exists? workingDirectory target then (.ok false, tree)
    else
      match copyInto tree workingDirectory document.path target disk with
      | (.error error, tree) => (.error error, tree)
      | (.ok (), tree) => (.ok true, tree)

/-- Back up a document if there is a directory for that. -/
def backUpIfAsked (tree : FileTree) (workingDirectory : Location) (settings : Settings)
    (document : MenuDocument) (disk : Disk := .sound) : Except RunError Unit × FileTree :=
  match settings.backupDirectory with
  | none => (.ok (), tree)
  | some directory =>
    let (result, tree) := backUp tree workingDirectory document directory disk
    (result.map fun _ => (), tree)

/-- Replace a document by its reduced form, after a backup. -/
def saveReduced (tree : FileTree) (workingDirectory : Location) (settings : Settings)
    (document : MenuDocument) (reduced : String) (disk : Disk := .sound) :
    Except RunError Unit × FileTree :=
  match backUpIfAsked tree workingDirectory settings document disk with
  | (.error error, tree) => (.error error, tree)
  | (.ok (), tree) =>
    let (result, tree) := tree.replaceFile workingDirectory document.path reduced.toUTF8 disk
    (result.mapError (.file document.path), tree)

/-- Reduce one document. -/
def process (tree : FileTree) (workingDirectory : Location) (settings : Settings) (mode : RunMode)
    (document : MenuDocument) (disk : Disk := .sound) : Except RunError Outcome × FileTree :=
  match disk.attempt .read document.path (tree.readText workingDirectory document.path) with
  | .error error => (.error (.file document.path error), tree)
  | .ok before =>
    match reduceDocument before settings.lineEnding with
    | .error .empty => (.ok .skipped, tree)
    | .error error => (.error (.document document.path error), tree)
    | .ok reduced =>
      if reduced = before then (.ok .unchanged, tree)
      else
        match mode with
        | .check => (.ok (.modified before reduced), tree)
        | .write =>
          match saveReduced tree workingDirectory settings document reduced disk with
          | (.error error, tree) => (.error error, tree)
          | (.ok (), tree) => (.ok (.modified before reduced), tree)

/-- A document with what a run made of it. -/
abbrev RunResult := MenuDocument × Except RunError Outcome

/-- Reduce documents one after the other. -/
def run (tree : FileTree) (workingDirectory : Location) (settings : Settings) (mode : RunMode) :
    List MenuDocument → List RunResult × FileTree
  | [] => ([], tree)
  | document :: documents =>
    let (outcome, tree) := process tree workingDirectory settings mode document
    let (results, tree) := run tree workingDirectory settings mode documents
    ((document, outcome) :: results, tree)

/-- The documents that change. -/
def modifiedOf (results : List RunResult) : List MenuDocument :=
  (results.filter fun result =>
    match result.2 with
    | .ok (.modified _ _) => true
    | _ => false).map Prod.fst

/-- The documents that nothing could be done with. -/
def failuresOf (results : List RunResult) : List MenuDocument :=
  (results.filter fun result =>
    match result.2 with
    | .error _ => true
    | .ok _ => false).map Prod.fst

/-- Copy files, given by the names that lead to them, from one directory to another. -/
def restoreAll (tree : FileTree) (workingDirectory : Location) (source target : Path) :
    List Location → Except RunError (List Path) × FileTree
  | [] => (.ok [], tree)
  | names :: files =>
    let restored := target.join ⟨false, names⟩
    match copyInto tree workingDirectory (names.foldl Path.child source) restored with
    | (.error error, tree) => (.error error, tree)
    | (.ok (), tree) =>
      let (result, tree) := restoreAll tree workingDirectory source target files
      (result.map (restored :: ·), tree)

/-- The files below a backup directory that a walk from there finds. What is taken for the standard
input is not walked, whatever directory has that name. -/
def FileTree.backedUpFiles (tree : FileTree) (backups : Path) (location : Location) :
    List Location :=
  if backups.isStandardInput then [] else tree.filesBelow location

/-- Copy the files in a backup directory to the same places below a target. Gives the files that
were written, in the order of their paths. -/
def restore (tree : FileTree) (workingDirectory : Location) (backups target : Path) :
    Except RunError (List Path) × FileTree :=
  match tree.locate workingDirectory backups with
  | .error _ => (.error (.file backups .noBackups), tree)
  | .ok location =>
    if tree.at? location = some .directory then
      let (result, tree) :=
        restoreAll tree workingDirectory backups target (tree.backedUpFiles backups location)
      (result.map Path.inOrder, tree)
    else (.error (.file backups .noBackups), tree)

end Menus
