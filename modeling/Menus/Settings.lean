import Menus.FileTree
import Menus.Text.LineBreak
import Menus.Toml.Table

/-!
# Settings

What a user can configure, how a settings file is read, and which settings file applies to a
directory: the nearest one in the directory itself or above it, or else the one of the user. A
settings file that was not asked for by name and cannot be read is passed over.
-/

namespace Menus

/-- What a user can configure. -/
structure Settings where
  /-- Patterns of the file names of menu documents. -/
  includes : List String := ["menu.selfml"]
  /-- Patterns of the paths that are left out. -/
  excludes : List String := []
  lineEnding : LineEnding := .auto
  /-- The directory for copies of documents as they were before they were first changed. -/
  backupDirectory : Option Path := none
  /-- Whether ignore files count when directories are walked. -/
  respectIgnoreFiles : Bool := false
  deriving DecidableEq, Inhabited

namespace Settings

/-- The texts of a list. -/
def textsOf? : List Toml.Value → Option (List String)
  | [] => some []
  | .text text :: items => (textsOf? items).map (text :: ·)
  | _ :: _ => none

/-- Patterns are a list of texts. -/
def patternsOf? : Toml.Value → Option (List String)
  | .list _ items => textsOf? items
  | _ => none

/-- The name of a line ending. -/
def lineEndingNamed? : String → Option LineEnding
  | "auto" => some .auto
  | "lf" => some .lf
  | "crlf" => some .crlf
  | _ => none

/-- A value without content, which may stand beside a name. -/
def isHollow : Toml.Value → Bool
  | .list _ [] => true
  | .table _ [] => true
  | _ => false

/-- A line ending is a name, which may also be the only key of a table. -/
def lineEndingOf? : Toml.Value → Option LineEnding
  | .text name => lineEndingNamed? name
  | .table _ [(name, value)] => if isHollow value then lineEndingNamed? name else none
  | _ => none

/-- A text. -/
def textOf? : Toml.Value → Option String
  | .text text => some text
  | _ => none

/-- A boolean. -/
def flagOf? : Toml.Value → Option Bool
  | .boolean flag => some flag
  | _ => none

/-- The setting of a key, the default if the table does not have the key, and nothing if its value
is of the wrong kind. -/
def setting? {α : Type} (entries : Toml.Entries) (key : String) (default : α)
    (read : Toml.Value → Option α) : Option α :=
  match entries.get? key with
  | none => some default
  | some value => read value

/-- The settings of a table. Other keys do not matter. -/
def ofEntries? (entries : Toml.Entries) : Option Settings := do
  let default : Settings := {}
  return {
    includes := ← setting? entries "include" default.includes patternsOf?
    excludes := ← setting? entries "exclude" default.excludes patternsOf?
    lineEnding := ← setting? entries "line_ending" default.lineEnding lineEndingOf?
    backupDirectory := ← setting? entries "backup_dir" none
      fun value => (textOf? value).map fun text => some (Path.ofText text)
    respectIgnoreFiles :=
      ← setting? entries "respect_gitignore" default.respectIgnoreFiles flagOf? }

/-- The settings that a text writes. -/
def parse? (text : String) : Option Settings := do ofEntries? (← Toml.parse? text)

end Settings

/-- Why a settings file that was asked for does not apply. -/
inductive SettingsError where
  /-- It cannot be read. -/
  | unreadable (error : FileError)
  /-- It is not a table with values of the right kinds. -/
  | invalid
  deriving DecidableEq, Inhabited

/-- Where the files of a user are. -/
structure User where
  /-- The home directory, if there is one. -/
  home : Option Path := none
  /-- The directory that was named for the settings of all programs. -/
  configHome : Option Path := none
  deriving Inhabited

/-- A user of whom no more is known than the directory for settings. -/
instance : Coe (Option Path) User := ⟨fun directory => { configHome := directory }⟩

namespace User

/-- Where settings go when no directory was named for them. -/
def usualDirectory? (user : User) : Option Path := user.home.map (·.child ".config")

/-- The directory for the settings of all programs. One that is not rooted does not count. -/
def settingsDirectory? (user : User) : Option Path :=
  (user.configHome.filter (·.rooted)).or user.usualDirectory?

end User

/-- What the files of a user are looked at from. -/
structure Surroundings where
  /-- The location that relative paths start at. -/
  workingDirectory : Location
  user : User
  deriving Inhabited

/-- The working directory as a path. -/
def Surroundings.path (surroundings : Surroundings) : Path :=
  ⟨true, surroundings.workingDirectory⟩

namespace Settings

/-- The settings in a file. -/
def read (tree : FileTree) (surroundings : Surroundings) (path : Path) :
    Except SettingsError Settings :=
  match tree.readText surroundings.workingDirectory path with
  | .error error => .error (.unreadable error)
  | .ok text =>
    match parse? text with
    | none => .error .invalid
    | some settings => .ok settings

/-- The names of a settings file, the preferred one first. -/
def fileNames : List String := [".snipmenu.toml", "snipmenu.toml"]

/-- Where the settings file of a directory could be, the nearest place first. -/
def candidates (start : Path) : List Path :=
  start.ancestors.flatMap fun directory => fileNames.map directory.child

/-- The settings file of a directory or of one above it. -/
def nearestFile? (tree : FileTree) (surroundings : Surroundings) (start : Path) : Option Path :=
  (candidates start).find? (tree.isFile surroundings.workingDirectory)

/-- The settings file of the user. -/
def userFile? (tree : FileTree) (surroundings : Surroundings) : Option Path :=
  (surroundings.user.settingsDirectory?.map fun directory =>
    (directory.child "snipmenu").child "config.toml").filter
      (tree.isFile surroundings.workingDirectory)

/-- The settings in a file, with its path. -/
def readFrom? (tree : FileTree) (surroundings : Surroundings) (path : Path) :
    Option (Settings × Option Path) :=
  match read tree surroundings path with
  | .ok settings => some (settings, some path)
  | .error _ => none

/-- The settings that apply to a directory, and the file they come from if it is not the
defaults. A file that is asked for by name has to be readable. -/
def load (tree : FileTree) (surroundings : Surroundings) (asked : Option Path) (start : Path) :
    Except SettingsError (Settings × Option Path) :=
  match asked with
  | some path => (read tree surroundings path).map fun settings => (settings, some path)
  | none =>
    let nearest := (nearestFile? tree surroundings start).bind (readFrom? tree surroundings)
    let user := (userFile? tree surroundings).bind (readFrom? tree surroundings)
    .ok ((nearest.or user).getD ({}, none))

end Settings

end Menus
