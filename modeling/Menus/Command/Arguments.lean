import Menus.Path

/-!
# Command-line arguments

There are three commands: `filter` reduces documents, `parse` shows the tree of one, and `restore`
copies backups back. An option is given at most once, except that the settings file can be named
before the command and again after it, where it counts. What comes after `--` is no option.
-/

namespace Menus.Command

/-- What to do. -/
inductive Action where
  /-- Reduce the documents that some paths lead to, or the standard input if there are none. -/
  | filter (paths : List Path) (check : Bool) (backupDirectory : Option Path)
  /-- Show the tree of a file or of the standard input. -/
  | parse (file : Option Path) (json : Bool)
  /-- Copy backups back. -/
  | restore (backups target : Path)
  deriving DecidableEq, Inhabited

namespace Action

/-- Whether the standard input is read. -/
def readsInput : Action → Bool
  | .filter paths _ _ => paths.isEmpty
  | .parse file _ => file.isNone
  | .restore _ _ => false

/-- The files and directories that are named. -/
def paths : Action → List Path
  | .filter paths _ backupDirectory => paths ++ backupDirectory.toList
  | .parse file _ => file.toList
  | .restore backups target => [backups, target]

end Action

/-- A request on the command line. -/
inductive Request where
  | perform (action : Action) (settingsFile : Option Path)
  | showHelp
  | showVersion
  deriving DecidableEq, Inhabited

/-- The names of the commands. -/
inductive Name where
  | filter
  | parse
  | restore
  deriving DecidableEq, Inhabited

/-- An option of a command. -/
inductive Switch where
  | config
  | check
  | backupDirectory
  | json
  | source
  deriving DecidableEq, Inhabited

namespace Switch

/-- Whether an option comes with a path. -/
def takesPath : Switch → Bool
  | .config => true
  | .check => false
  | .backupDirectory => true
  | .json => false
  | .source => true

/-- The options of a command. -/
def all : Name → List (String × Switch)
  | .filter => [("config", .config), ("check", .check), ("backup-dir", .backupDirectory)]
  | .parse => [("config", .config), ("json", .json)]
  | .restore => [("config", .config), ("from", .source)]

end Switch

/-- What was given to a command: options with their paths, and other arguments, the latest first. -/
structure Given where
  switches : List (Switch × Option Path) := []
  reversed : List Path := []
  deriving Inhabited

namespace Given

/-- The path that was given with an option. -/
def path? (given : Given) (switch : Switch) : Option Path := (given.switches.lookup switch).join

/-- Whether an option was given. -/
def has (given : Given) (switch : Switch) : Bool := (given.switches.lookup switch).isSome

/-- Whether a command takes one more argument that is no option. -/
def takesMore (given : Given) : Name → Bool
  | .filter => true
  | .parse => given.reversed.length < 1
  | .restore => given.reversed.length < 1

end Given

/-- Whether an argument is written like an option. A hyphen alone is not. -/
def looksLikeOption (argument : String) : Bool :=
  match argument.toList with
  | '-' :: _ :: _ => true
  | _ => false

/-- A path has at least one character. -/
def pathOf? (argument : String) : Option Path :=
  if argument = "" then none else some (Path.ofText argument)

/-- The name of a long option, and the text after an equals sign if there is one. -/
def longOption? (argument : String) : Option (String × Option String) :=
  match argument.toList with
  | '-' :: '-' :: chars =>
    let name := String.ofList (chars.takeWhile (· ≠ '='))
    match chars.dropWhile (· ≠ '=') with
    | [] => some (name, none)
    | _ :: value => some (name, some (String.ofList value))
  | _ => none

/-- Why arguments give no action. -/
inductive Refusal where
  /-- They are no valid use of the program. -/
  | usage
  /-- Help was asked for first. -/
  | help
  | version
  deriving DecidableEq, Inhabited

/-- Read the path of an option: after the equals sign, or as the next argument, which must not look
like an option. -/
def takePath (value : Option String) (arguments : List String) :
    Except Refusal (Path × List String) :=
  match value, arguments with
  | some text, arguments =>
    match pathOf? text with
    | some path => .ok (path, arguments)
    | none => .error .usage
  | none, text :: arguments =>
    if looksLikeOption text then .error .usage
    else
      match pathOf? text with
      | some path => .ok (path, arguments)
      | none => .error .usage
  | none, [] => .error .usage

/-- Whether an argument asks for help. -/
def asksForHelp (argument : String) : Bool :=
  argument = "--help" || argument.toList.take 2 = ['-', 'h']

/-- Add an argument that is no option. -/
def takeOther (name : Name) (given : Given) (argument : String) : Except Refusal Given :=
  match pathOf? argument with
  | none => .error .usage
  | some path =>
    if given.takesMore name then .ok { given with reversed := path :: given.reversed }
    else .error .usage

/-- Add arguments that are no options. -/
def takeRest (name : Name) (given : Given) : List String → Except Refusal Given
  | [] => .ok given
  | argument :: arguments => do takeRest name (← takeOther name given argument) arguments

/-- Read the arguments after the name of a command. An argument is taken at every step. -/
def takeGiven (name : Name) : Nat → Given → List String → Except Refusal Given
  | 0, _, _ => .error .usage
  | _, given, [] => .ok given
  | steps + 1, given, argument :: arguments =>
    if argument = "--" then takeRest name given arguments
    else if asksForHelp argument then .error .help
    else if !looksLikeOption argument then do
      takeGiven name steps (← takeOther name given argument) arguments
    else
      match longOption? argument with
      | none => .error .usage
      | some (option, value) =>
        match (Switch.all name).lookup option with
        | none => .error .usage
        | some switch =>
          if given.has switch then .error .usage
          else if switch.takesPath then
            match takePath value arguments with
            | .error refusal => .error refusal
            | .ok (path, arguments) =>
              takeGiven name steps
                { given with switches := (switch, some path) :: given.switches } arguments
          else if value.isSome then .error .usage
          else
            takeGiven name steps
              { given with switches := (switch, none) :: given.switches } arguments

/-- The action of a command with what was given to it. -/
def actionOf? (name : Name) (given : Given) : Option Action :=
  match name, given.reversed.reverse with
  | .filter, paths => some (.filter paths (given.has .check) (given.path? .backupDirectory))
  | .parse, files => some (.parse files.head? (given.has .json))
  | .restore, targets => do return .restore (← given.path? .source) (← targets.head?)

/-- The command that an argument names. -/
def nameOf? (argument : String) : Option Name :=
  [("filter", Name.filter), ("parse", .parse), ("restore", .restore)].lookup argument

/-- Read the arguments in front of the name of a command, and then those after it. -/
def takeAll : Nat → Option Path → List String → Except Refusal (Action × Option Path)
  | 0, _, _ => .error .usage
  | _, _, [] => .error .usage
  | steps + 1, settingsFile, argument :: arguments =>
    match nameOf? argument with
    | some name => do
      let given ← takeGiven name (arguments.length + 1) {} arguments
      match actionOf? name given with
      | none => .error .usage
      | some action => .ok (action, (given.path? .config).or settingsFile)
    | none =>
      if asksForHelp argument then .error .help
      else if argument = "--version" || argument.toList.take 2 = ['-', 'V'] then .error .version
      else if argument = "help" then
        match arguments with
        | [] => .error .help
        | [name] => .error (if (nameOf? name).isSome || name = "help" then .help else .usage)
        | _ => .error .usage
      else
        match longOption? argument with
        | some ("config", value) =>
          if settingsFile.isSome then .error .usage
          else
            match takePath value arguments with
            | .error refusal => .error refusal
            | .ok (path, arguments) => takeAll steps (some path) arguments
        | _ => .error .usage

/-- The request that some arguments write, unless they are no valid use of the program. -/
def request? (arguments : List String) : Option Request :=
  match takeAll (arguments.length + 1) none arguments with
  | .ok (action, settingsFile) => some (.perform action settingsFile)
  | .error .help => some .showHelp
  | .error .version => some .showVersion
  | .error .usage => none

end Menus.Command
