import Menus.Command.Perform

/-!
# The program

The layer between the commands and the disk. It takes a picture of the files that a command can
reach, performs the command on that picture, and then carries out on the disk what has changed.
Links are not followed.
-/

namespace Menus

/-- Add a file of the disk to a picture, if it is there. -/
def pictureFile (tree : FileTree) (path : Path) : IO FileTree := do
  let .ok bytes ← (IO.FS.readBinFile path.text).toBaseIO | return tree
  let parent := path.parent?.getD path
  return ((tree.makeDirectories [] parent).2.write [] path bytes).toOption.getD tree

/-- Add everything at and below a path of the disk to a picture. -/
partial def picture (tree : FileTree) (path : Path) : IO FileTree := do
  let place := (← IO.currentDir) / path.text
  let .ok found ← place.symlinkMetadata.toBaseIO | return tree
  match found.type with
  | .file => pictureFile tree path
  | .dir =>
    let mut tree := (tree.makeDirectories [] path).2
    for entry in ← place.readDir do
      tree ← picture tree (path.child entry.fileName)
    return tree
  | _ => return tree

/-- Add the files in a directory that say how it and those below it are treated. -/
def pictureRules (tree : FileTree) (directory : Path) : IO FileTree := do
  let mut tree := tree
  for name in Settings.fileNames ++ [".ignore", ".gitignore"] do
    tree ← pictureFile tree (directory.child name)
  let repository := directory.child ".git"
  let .ok _ ← ((← IO.currentDir) / repository.text).metadata.toBaseIO | return tree
  tree := (tree.makeDirectories [] repository).2
  pictureFile tree (repository.join (Path.ofText "info/exclude"))

/-- Add what a path of the disk leads to, and the rules of the directories above it. -/
def pictureAround (tree : FileTree) (path : Path) : IO FileTree := do
  path.ancestors.foldlM pictureRules (← picture tree path)

/-- Write to the disk what a later picture has and an earlier one has not. -/
def carryOut (before after : FileTree) : IO Unit := do
  for (location, entry) in after.entries.reverse do
    if before.at? location ≠ some entry then
      let path : Path := ⟨true, location⟩
      match entry with
      | .directory => IO.FS.createDirAll path.text
      | .file bytes => IO.FS.writeBinFile path.text bytes

/-- The rest of the standard input. -/
partial def readInput (stream : IO.FS.Stream) (read : String) : IO String := do
  let line ← stream.getLine
  if line.isEmpty then return read else readInput stream (read ++ line)

/-- The path that a variable of the environment names, unless it is empty. -/
def pathNamed? (name : String) : IO (Option Path) := do
  return ((← IO.getEnv name).filter (!·.isEmpty)).map Path.ofText

/-- The working directory and the directories of the user. -/
def lookAround : IO Surroundings := do
  let top := Path.ofText (← IO.currentDir).toString
  let user : User := { home := ← pathNamed? "HOME", configHome := ← pathNamed? "XDG_CONFIG_HOME" }
  return ⟨top.segments.filter (!isIdleSegment ·), user⟩

/-- Add the files of the disk that say how the user wants all directories to be treated. -/
def pictureUser (tree : FileTree) (surroundings : Surroundings) : IO FileTree := do
  let user := surroundings.user
  let fromHere (path : Path) : Path := (path.absolute? surroundings.path).getD path
  let mut tree := tree
  if let some directory := user.settingsDirectory? then
    tree ← picture tree (directory.child "snipmenu")
  if let some home := user.home then
    tree ← pictureFile tree (fromHere (home.child ".gitconfig"))
  if let some directory := user.configHome.or user.usualDirectory? then
    tree ← picture tree (fromHere (directory.child "git"))
  if let some file := tree.userRulesFile? surroundings then
    tree ← pictureFile tree (fromHere file)
  return tree

/-- A picture of everything that an action can reach. -/
def pictureOf (surroundings : Surroundings) (action : Command.Action) (settingsFile : Option Path) :
    IO FileTree := do
  let top := surroundings.path
  let mut tree ← top.ancestors.foldlM pictureRules .empty
  for path in action.paths ++ settingsFile.toList do
    tree ← pictureAround tree ((path.absolute? top).getD top)
  tree ← pictureUser tree surroundings
  let start := Command.startDirectory tree surroundings action.paths
  if let .ok (settings, _) := Settings.load tree surroundings settingsFile start then
    if let some directory := settings.backupDirectory then
      tree ← picture tree ((directory.absolute? top).getD top)
  return tree

end Menus

open Menus in
/-- Perform the command that the arguments write. -/
def main (arguments : List String) : IO UInt32 := do
  let surroundings ← lookAround
  let mut before := FileTree.empty
  let mut input := ""
  if let some (.perform action settingsFile) := Command.request? arguments then
    before ← pictureOf surroundings action settingsFile
    if action.readsInput then input ← readInput (← IO.getStdin) ""
  let (response, after) := Command.perform before surroundings arguments input
  carryOut before after
  IO.print response.output
  IO.eprint response.errors
  return response.code
