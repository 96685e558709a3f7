import Menus.FileTree

/-!
# Disks that fail

What is in a file tree decides what an operation on its files does, as long as the disk plays along.
A disk can also refuse a step of it: it is full, or taken away, or denies access. What is left then
depends on how far the operation has come.

The bytes of a file are replaced by way of a temporary file beside it. That is filled first and
takes the place of the file at once, so that the file never holds anything in between.
-/

namespace Menus

/-- A step of an operation that a disk may refuse. -/
inductive DiskStep where
  /-- Read a file. -/
  | read
  /-- Make a directory with all of its parents. -/
  | makeDirectories
  /-- Copy another file to a file. -/
  | copy
  /-- Look up the permissions of a file. -/
  | inspect
  /-- Make a temporary file beside a file. -/
  | makeTemporary
  /-- Write the temporary file. -/
  | fill
  /-- Give the temporary file the permissions of the file. -/
  | permit
  /-- Put the temporary file in the place of the file. -/
  | rename
  /-- Delete the temporary file. -/
  | discard
  deriving DecidableEq, Inhabited

/-- How a disk refuses a step. -/
structure DiskFault where
  /-- What it reports. -/
  error : FileError
  /-- How many bytes were written or directories were made, if the step was begun at all. -/
  progress : Option Nat := none
  deriving DecidableEq, Inhabited

/-- A disk. -/
structure Disk where
  /-- The steps that are refused, each on the path that it is about. -/
  fault? : DiskStep → Path → Option DiskFault
  /-- The names that are drawn for a temporary file, one after the other. -/
  drawnName : Nat → String

namespace Disk

/-- A disk that refuses nothing. -/
def sound : Disk where
  fault? := fun _ _ => none
  drawnName := fun draw => String.ofList (['.', 't', 'm', 'p'] ++ List.replicate draw '_')

instance : Inhabited Disk := ⟨sound⟩

/-- A step that is done at once or not at all. -/
def attempt {α : Type} (disk : Disk) (step : DiskStep) (path : Path)
    (result : Except FileError α) : Except FileError α :=
  match disk.fault? step path with
  | some fault => .error fault.error
  | none => result

/-- A sound disk refuses no step. -/
@[simp]
theorem fault?_sound (step : DiskStep) (path : Path) : sound.fault? step path = none := rfl

/-- What is tried on a sound disk is what it is. -/
@[simp]
theorem attempt_sound {α : Type} (step : DiskStep) (path : Path) (result : Except FileError α) :
    sound.attempt step path result = result := rfl

/-- A step is done if the disk does not refuse it and it succeeds. -/
theorem attempt_eq_ok_iff {α : Type} {disk : Disk} {step : DiskStep} {path : Path}
    {result : Except FileError α} {value : α} :
    disk.attempt step path result = .ok value ↔
      disk.fault? step path = none ∧ result = .ok value := by
  unfold attempt
  split <;> simp [*]

end Disk

namespace FileTree

/-- Look up what is at the end of a path. -/
def inspect (tree : FileTree) (workingDirectory : Location) (path : Path) :
    Except FileError FileEntry := do
  let location ← tree.locate workingDirectory path
  match tree.at? location with
  | none => .error .missing
  | some entry => .ok entry

/-- The first drawn name that a directory has no entry of. There are more draws than entries. -/
def freeName? (tree : FileTree) (directory : Location) (drawnName : Nat → String) :
    Option String :=
  ((List.range (tree.entries.length + 1)).map drawnName).find? fun name =>
    IsProperName name ∧ tree.at? (directory ++ [name]) = none

/-- Find the directory at the end of a path and a name for a temporary file in it. -/
def chooseTemporary (tree : FileTree) (workingDirectory : Location) (directory : Path)
    (drawnName : Nat → String) : Except FileError (Location × String) := do
  let location ← tree.locate workingDirectory directory
  match tree.at? location with
  | none => .error .missing
  | some (.file _) => .error .notDirectory
  | some .directory =>
    match tree.freeName? location drawnName with
    | none => .error .alreadyExists
    | some name => .ok (location, name)

/-- Take a file from its location to the end of a path, in the place of a file that is there. -/
def rename (tree : FileTree) (workingDirectory : Location) (source : Location) (target : Path) :
    Except FileError FileTree :=
  match tree.bytes? source with
  | none => .error .missing
  | some bytes => (tree.remove source).write workingDirectory target bytes

/-- Delete the temporary file for a path, or leave it when the disk refuses that. -/
def discard (tree : FileTree) (location : Location) (path : Path) (disk : Disk) : FileTree :=
  if (disk.fault? .discard path).isSome then tree else tree.remove location

/-- Fill a temporary file, which is in a directory under a name, and put it in the place of the file
at the end of a path. When that fails it is deleted. -/
def settleTemporary (tree : FileTree) (workingDirectory : Location) (path : Path)
    (bytes : ByteArray) (disk : Disk) (directory : Location) (name : String) :
    Except FileError Unit × FileTree :=
  match disk.fault? .fill path with
  | some fault =>
    let written := bytes.extract 0 (fault.progress.getD 0)
    let filled := tree.put directory name (.file written)
    (.error fault.error, filled.discard (directory ++ [name]) path disk)
  | none =>
    let filled := tree.put directory name (.file bytes)
    match disk.attempt .permit path (.ok ()) with
    | .error error => (.error error, filled.discard (directory ++ [name]) path disk)
    | .ok () =>
      match disk.attempt .rename path
          (filled.rename workingDirectory (directory ++ [name]) path) with
      | .error error => (.error error, filled.discard (directory ++ [name]) path disk)
      | .ok replaced => (.ok (), replaced)

/-- Replace the bytes of a file by way of a temporary file in its directory. -/
def replaceFile (tree : FileTree) (workingDirectory : Location) (path : Path) (bytes : ByteArray)
    (disk : Disk := .sound) : Except FileError Unit × FileTree :=
  match disk.attempt .inspect path (tree.inspect workingDirectory path) with
  | .error error => (.error error, tree)
  | .ok _ =>
    match disk.attempt .makeTemporary path
        (tree.chooseTemporary workingDirectory path.holder disk.drawnName) with
    | .error error => (.error error, tree)
    | .ok (directory, name) =>
      (tree.put directory name (.file .empty)).settleTemporary workingDirectory path bytes disk
        directory name

/-- What is left of a copy that a disk refuses: nothing is done, or the target holds as many of the
bytes as were written. -/
def copyPart (tree : FileTree) (workingDirectory : Location) (source target : Path)
    (progress : Option Nat) : FileTree :=
  match progress, tree.copy workingDirectory source target with
  | some count, .ok copied =>
    let written := ((copied.read workingDirectory target).toOption.getD .empty).extract 0 count
    (copied.write workingDirectory target written).toOption.getD copied
  | _, _ => tree

/-- What is left of making a directory that a disk refuses: as many of its parents as were made, the
outermost ones. -/
def makeDirectoriesPart (tree : FileTree) (workingDirectory : Location) (path : Path)
    (progress : Option Nat) : FileTree :=
  let parents := path.ancestors
  (tree.makeDirectoriesOf workingDirectory
    (parents.drop (parents.length - progress.getD 0))).2

end FileTree

end Menus
