import Menus.Command.Arguments
import Menus.Difference.Report
import Menus.Node.Display
import Menus.Run

/-!
# Performing a command

A command reads the standard input and a file tree, and gives what it prints, its exit code and the
file tree it leaves. The code is 0 when there is nothing to report, 1 when a document failed or
would change, and 2 when the command could not start on its documents.
-/

namespace Menus.Command

/-- What a command leaves behind. -/
structure Response where
  code : UInt32 := 0
  /-- The standard output. -/
  output : String := ""
  /-- The standard error. -/
  errors : String := ""
  deriving DecidableEq, Inhabited

/-- A line of output. -/
def line (text : String) : String := text ++ "\n"

/-- A failure of an operation on files, in every detail. -/
def fileErrorDetails : FileError → String
  | .missing => osDetails 2 "NotFound" "No such file or directory"
  | .notDirectory => osDetails 20 "NotADirectory" "Not a directory"
  | .isDirectory => osDetails 21 "IsADirectory" "Is a directory"
  | .alreadyExists => osDetails 17 "AlreadyExists" "File exists"
  | .notText => plainDetails "InvalidData" FileError.notText.message
  | .notFile => plainDetails "InvalidInput" FileError.notFile.message
  | .emptyPath => plainDetails "InvalidInput" FileError.emptyPath.message
  | .outsideRoot => plainDetails "InvalidInput" FileError.outsideRoot.message
  | .noBackups => plainDetails "NotFound" FileError.noBackups.message
where
  /-- A failure that the operating system numbers. -/
  osDetails (number : Nat) (kind text : String) : String :=
    s!"Os \x7b code: {number}, kind: {kind}, message: " ++ displayedText text ++ " \x7d"
  /-- Any other failure. -/
  plainDetails (kind text : String) : String :=
    s!"Error \x7b kind: {kind}, message: " ++ displayedText text ++ " \x7d"

/-- A response that only reports why the command ended early. -/
def failure (code : UInt32) (text : String) : Response :=
  { code := code, errors := line ("Error: " ++ text) }

/-- The response to a settings file that was asked for and does not apply. What is wrong with its
text is said by the reader of such texts, in words of its own. -/
def settingsFailure (tree : FileTree) (surroundings : Surroundings) (explain : String → String)
    (path : Path) : SettingsError → Response
  | .unreadable error => failure 1 (fileErrorDetails error)
  | .invalid =>
    let text := (tree.readText surroundings.workingDirectory path).toOption.getD ""
    failure 1
      ("Custom \x7b kind: InvalidData, error: " ++
        displayedText ("invalid config " ++ path.text ++ ": " ++ explain text) ++ " \x7d")

/-- The directory whose settings apply to some paths: the first path if it is a directory, else the
directory it is in, and the working directory if there is no path. -/
def startDirectory (tree : FileTree) (surroundings : Surroundings) (paths : List Path) : Path :=
  match paths with
  | [] => surroundings.path
  | path :: _ =>
    if tree.isDirectory surroundings.workingDirectory path then path
    else path.parent?.getD (Path.ofText ".")

/-- Reduce the standard input. -/
def filterInput (settings : Settings) (check : Bool) (input : String) : Response :=
  match reduceDocument input settings.lineEnding with
  | .ok reduced =>
    if !check then { output := reduced }
    else if input = reduced then {}
    else { code := 1, output := Difference.report "<stdin>" input reduced }
  | .error .empty => if check then {} else { output := input }
  | .error error => failure 1 error.message

/-- What is printed about a document after a run. -/
def resultOutput (check : Bool) (result : RunResult) : String :=
  match result.2 with
  | .ok (.modified before reduced) =>
    if check then Difference.report result.1.path.text before reduced
    else line ("Modified: " ++ result.1.name)
  | _ => ""

/-- What is printed about a document that nothing could be done with. -/
def resultErrors (result : RunResult) : String :=
  match result.2 with
  | .error error => line (s!"Error processing {result.1.name}: " ++ error.message)
  | .ok _ => ""

/-- The last line about a run. -/
def summary (check : Bool) (modified : Nat) : String :=
  if check then line s!"\n{modified} menu file(s) would be modified"
  else line s!"\nTotal modified: {modified} menu files"

/-- Reduce the documents that some paths lead to. -/
def filterPaths (tree : FileTree) (surroundings : Surroundings) (settings : Settings)
    (check : Bool) (paths : List Path) : Response × FileTree :=
  match collect tree surroundings settings paths with
  | .error error => (failure 2 error.message, tree)
  | .ok documents =>
    let mode := if check then RunMode.check else .write
    let (results, tree) := run tree surroundings.workingDirectory settings mode documents
    let modified := (modifiedOf results).length
    let isBad := failuresOf results ≠ [] || (check && modified ≠ 0)
    ({ code := if isBad then 1 else 0
       output := String.join (results.map (resultOutput check)) ++ summary check modified
       errors := String.join (results.map resultErrors) }, tree)

/-- Reduce documents or the standard input with the settings that apply to them. -/
def filter (tree : FileTree) (surroundings : Surroundings) (input : String)
    (settingsFile : Option Path) (paths : List Path) (check : Bool)
    (backupDirectory : Option Path) (explain : String → String) : Response × FileTree :=
  match Settings.load tree surroundings settingsFile (startDirectory tree surroundings paths) with
  | .error error =>
    (settingsFailure tree surroundings explain (settingsFile.getD .empty) error, tree)
  | .ok (settings, _) =>
    let settings :=
      { settings with backupDirectory := backupDirectory.or settings.backupDirectory }
    if paths = [] then (filterInput settings check input, tree)
    else filterPaths tree surroundings settings check paths

/-- Show the tree of a text and warn about its anomalies. -/
def showTree (json : Bool) (text : String) : Response :=
  let parse := parseDocument text
  { output := line (if json then jsonTree parse.root else outlineTree parse.root)
    errors :=
      String.join (parse.anomalies.map fun anomaly => line ("warning: " ++ anomaly.message)) }

/-- Show the tree of a file or of the standard input. -/
def parse (tree : FileTree) (surroundings : Surroundings) (input : String) (file : Option Path)
    (json : Bool) : Response :=
  match file with
  | none => showTree json input
  | some path =>
    match tree.readText surroundings.workingDirectory path with
    | .error error => failure 1 (fileErrorDetails error)
    | .ok text => showTree json text

/-- Copy backups back and list them. -/
def restoreBackups (tree : FileTree) (surroundings : Surroundings) (backups target : Path) :
    Response × FileTree :=
  match restore tree surroundings.workingDirectory backups target with
  | (.error error, tree) => (failure 1 error.message, tree)
  | (.ok restored, tree) =>
    ({ output :=
        String.join (restored.map fun path => line ("Restored " ++ path.text)) ++
          line s!"\nTotal restored: {restored.length} files" }, tree)

/-- How the program is used. -/
def usage : String :=
  "Usage: snipmenu [--config PATH] filter [--check] [--backup-dir DIR] [PATH]...\n" ++
  "       snipmenu [--config PATH] parse [--json] [FILE]\n" ++
  "       snipmenu [--config PATH] restore --from DIR ROOT\n"

/-- Perform what some arguments ask for. The last argument gives the words for a text that is no
settings file. -/
def perform (tree : FileTree) (surroundings : Surroundings) (arguments : List String)
    (input : String) (explain : String → String := fun _ => "") : Response × FileTree :=
  match request? arguments with
  | none => ({ code := 2, errors := usage }, tree)
  | some .showHelp => ({ output := usage }, tree)
  | some .showVersion => ({ output := line "snipmenu 0.3.0" }, tree)
  | some (.perform action settingsFile) =>
    match action with
    | .filter paths check backupDirectory =>
      filter tree surroundings input settingsFile paths check backupDirectory explain
    | .parse file json => (parse tree surroundings input file json, tree)
    | .restore backups target => restoreBackups tree surroundings backups target

end Menus.Command
