import Menus.GitSettings
import Menus.Selection
import Menus.Text.Blank

/-!
# Ignore files

A directory can hold files whose lines say what to leave out when the directory or one above it is
walked. `.ignore` always counts. `.gitignore` and the list of exclusions in `.git` count only
inside a repository, up to its root. A rule of a nearer directory comes before one further up, a
later line before an earlier one, and any rule of an `.ignore` before those of a repository. The
rules that the user has for all repositories come last.

A line that cannot be read is passed over, but a walk does not start below a directory that has one.
-/

namespace Menus

/-- A line of an ignore file. -/
structure IgnoreRule where
  pieces : List Glob.Piece
  /-- The line keeps what it matches, `!`. -/
  keeps : Bool
  /-- The line is only about directories. -/
  onlyDirectories : Bool
  deriving Inhabited

namespace IgnoreRule

/-- The line without what does not belong to its pattern. Blanks at its end count only when the
last one comes after a backslash. -/
def trimLine (line : List Char) : List Char :=
  if line.reverse.take 2 = [' ', '\\'] then line else dropBlankEnd line

/-- Whether a pattern already starts with any directories. -/
def startsAnywhere (pattern : List Char) : Bool :=
  pattern.take 3 = ['*', '*', '/'] || pattern = ['*', '*']

/-- The pattern of a line without its markers. One without a slash matches in every directory
below, and one for everything in a directory does not match that directory. -/
def completePattern (anchored : Bool) (pattern : List Char) : List Char :=
  let pattern :=
    if anchored || pattern.contains '/' || startsAnywhere pattern then pattern
    else '*' :: '*' :: '/' :: pattern
  if pattern.reverse.take 3 = ['*', '*', '/'] then pattern ++ ['/', '*'] else pattern

/-- The pattern of a line without the slash that makes it a rule about directories. -/
def dropDirectoryMark (pattern : List Char) : List Char :=
  let pattern := pattern.dropLast
  if pattern.getLast? = some '\\' then pattern.dropLast else pattern

/-- A rule from the markers of its line and the rest of it. -/
def ofMarked (keeps anchored : Bool) (pattern : List Char) :
    Except Glob.PatternError IgnoreRule :=
  let onlyDirectories := pattern.getLast? = some '/'
  let pattern := if onlyDirectories then dropDirectoryMark pattern else pattern
  (Glob.parse (String.ofList (completePattern anchored pattern)) true).map fun pieces =>
    ⟨pieces, keeps, onlyDirectories⟩

/-- A rule from a line with its markers. -/
def ofPattern : List Char → Except Glob.PatternError IgnoreRule
  | '\\' :: '!' :: rest => ofMarked false false ('!' :: rest)
  | '\\' :: '#' :: rest => ofMarked false false ('#' :: rest)
  | '!' :: '/' :: rest => ofMarked true true rest
  | '!' :: rest => ofMarked true false rest
  | '/' :: rest => ofMarked false true rest
  | pattern => ofMarked false false pattern

/-- The rule of a line. Comments and blank lines have none. -/
def ofLine? (line : List Char) : Option (Except PatternFailure IgnoreRule) :=
  let pattern := trimLine line
  if line.head? = some '#' || pattern.isEmpty then none
  else some ((ofPattern pattern).mapError (⟨String.ofList pattern, ·⟩))

/-- Whether a rule is about the text of a path. -/
def applies (rule : IgnoreRule) (isDirectory : Bool) (text : String) : Bool :=
  (isDirectory || !rule.onlyDirectories) && Glob.isMatch rule.pieces text true

end IgnoreRule

/-- What is wrong with a line of an ignore file. -/
inductive RuleProblem where
  | notText
  | pattern (failure : PatternFailure)
  deriving DecidableEq, Inhabited

/-- The wording shown to a user. -/
def RuleProblem.message : RuleProblem → String
  | .notText => FileError.notText.message
  | .pattern failure => failure.message

/-- A line of an ignore file that cannot be read. -/
structure RuleFault where
  file : Location
  /-- The number of the line. -/
  line : Nat
  problem : RuleProblem
  deriving DecidableEq, Inhabited

/-- The wording shown to a user. -/
def RuleFault.message (fault : RuleFault) : String :=
  (⟨true, fault.file⟩ : Path).text ++ s!": line {fault.line}: " ++ fault.problem.message

/-- The lines of some bytes, without their ends. -/
def byteLines (bytes : List UInt8) : List (List UInt8) :=
  bytes.foldr
    (fun byte lines =>
      if byte = 0x0A then [] :: lines
      else
        match lines with
        | [] => [[byte]]
        | line :: lines => (byte :: line) :: lines)
    []

/-- A line without what does not belong to it: a byte order mark in the first one, and a carriage
return at its end. -/
def cleanLine (number : Nat) (text : String) : List Char :=
  let line := if number = 1 then text.toList.dropWhile (· = '\uFEFF') else text.toList
  if line.getLast? = some '\r' then line.dropLast else line

/-- What some lines write, with their numbers. Nothing is read after a line that is no text. -/
def readRules (number : Nat) : List (List UInt8) → List (Nat × Except RuleProblem IgnoreRule)
  | [] => []
  | line :: lines =>
    match String.fromUTF8? line.toByteArray with
    | none => [(number, .error .notText)]
    | some text =>
      match IgnoreRule.ofLine? (cleanLine number text) with
      | none => readRules (number + 1) lines
      | some rule => (number, rule.mapError .pattern) :: readRules (number + 1) lines

/-- The rules of an ignore file, the last one first. -/
def ignoreRules (bytes : ByteArray) : List IgnoreRule :=
  ((readRules 1 (byteLines bytes.toList)).filterMap (·.2.toOption)).reverse

/-- What is wrong with the lines of an ignore file. That it stops being text does not matter by
itself. -/
def ruleProblems (bytes : ByteArray) : List (Nat × RuleProblem) :=
  let problems := (readRules 1 (byteLines bytes.toList)).filterMap fun (number, rule) =>
    match rule with
    | .error problem => some (number, problem)
    | .ok _ => none
  if problems.all (·.2 = .notText) then [] else problems

/-- The verdict of the first rule that is about the text of a path: whether it is left out. -/
def verdict? (rules : List IgnoreRule) (isDirectory : Bool) (text : String) : Option Bool :=
  (rules.find? (·.applies isDirectory text)).map (!·.keeps)

/-- How the text of a path goes on after that of the working directory. -/
def Surroundings.textFromHere (surroundings : Surroundings) (path : Path) : String :=
  let start := surroundings.path.text.toList
  if start.isPrefixOf path.text.toList then
    match path.text.toList.drop start.length with
    | '/' :: rest => String.ofList rest
    | rest => String.ofList rest
  else path.text

namespace FileTree

/-- The verdict of an ignore file in a directory, about a path from that directory. -/
def verdictOf? (tree : FileTree) (directory : Location) (file : List String) (isDirectory : Bool)
    (below : Location) : Option Bool :=
  (tree.bytes? (directory ++ file)).bind fun bytes =>
    verdict? (ignoreRules bytes) isDirectory ("/".intercalate below)

/-- The lines of an ignore file in a directory that cannot be read. -/
def faultsOf (tree : FileTree) (directory : Location) (file : List String) : List RuleFault :=
  (((tree.bytes? (directory ++ file)).map ruleProblems).getD []).map fun (line, problem) =>
    ⟨directory ++ file, line, problem⟩

/-- Whether a directory is the root of a repository. -/
def isRepository (tree : FileTree) (directory : Location) : Bool :=
  (tree.at? (directory ++ [".git"])).isSome

/-- The directories that a location is in, the nearest first, each with the rest of the way. -/
def directoriesAbove (location : Location) : List (Location × Location) :=
  ((List.range location.length).map fun count =>
    (location.take count, location.drop count)).reverse

/-- The directories up to the root of the nearest repository, if there is one. -/
def directoriesOfRepository (tree : FileTree) (location : Location) :
    List (Location × Location) :=
  let directories := directoriesAbove location
  let inside := directories.takeWhile fun directory => !tree.isRepository directory.1
  match directories.drop inside.length with
  | [] => []
  | root :: _ => inside ++ [root]

/-- The lines of ignore files above a location that cannot be read, from the top downwards. -/
def faultsAbove (tree : FileTree) (location : Location) : List RuleFault :=
  (directoriesAbove location).reverse.flatMap fun (directory, _) =>
    [[".ignore"], [".gitignore"], [".git", "info", "exclude"]].flatMap (tree.faultsOf directory)

/-- The file of the rules that a user has for all repositories: the one that the settings for
repositories name, or else the usual one. -/
def userRulesFile? (tree : FileTree) (surroundings : Surroundings) : Option Path :=
  let user := surroundings.user
  let directory := (user.configHome.or user.usualDirectory?).map (·.child "git")
  let namedIn? (file : Path) : Option Path :=
    (tree.read surroundings.workingDirectory file).toOption.bind fun bytes =>
      (GitSettings.excludesFile? bytes.toList).map fun text =>
        Path.ofText (GitSettings.expandHome user.home text)
  ((user.home.map (·.child ".gitconfig")).bind namedIn?).or
    (((directory.map (·.child "config")).bind namedIn?).or (directory.map (·.child "ignore")))

/-- The rules that a user has for all repositories, the last one first. -/
def userRules (tree : FileTree) (surroundings : Surroundings) : List IgnoreRule :=
  (((tree.userRulesFile? surroundings).bind fun path =>
    (tree.read surroundings.workingDirectory path).toOption).map ignoreRules).getD []

/-- Whether the ignore files leave out what is at a location, and was reached by a path. -/
def isIgnored (tree : FileTree) (surroundings : Surroundings) (userRules : List IgnoreRule)
    (path : Path) (location : Location) (isDirectory : Bool) : Bool :=
  let first? (directories : List (Location × Location)) (file : List String) : Option Bool :=
    directories.findSome? fun (directory, below) =>
      tree.verdictOf? directory file isDirectory below
  let repository := tree.directoriesOfRepository location
  let ofUser? :=
    if repository.isEmpty then none
    else verdict? userRules isDirectory (surroundings.textFromHere path)
  ((first? (directoriesAbove location) [".ignore"]).or
    ((first? repository [".gitignore"]).or
      ((first? repository [".git", "info", "exclude"]).or ofUser?))).getD false

/-- Whether a walk from a directory reaches a file below it when ignore files count: neither the
file nor a directory on the way to it is left out. The directory itself is walked in any case. -/
def isReached (tree : FileTree) (surroundings : Surroundings) (userRules : List IgnoreRule)
    (path : Path) (directory file : Location) : Bool :=
  (List.range file.length).all fun count =>
    let names := file.take (count + 1)
    !tree.isIgnored surroundings userRules (names.foldl Path.child path) (directory ++ names)
      (count + 1 < file.length)

/-- The files that a walk from a directory at the end of a path finds, as the names that lead to
them. -/
def walk (tree : FileTree) (surroundings : Surroundings) (path : Path) (directory : Location)
    (respectIgnoreFiles : Bool) : Except (List RuleFault) (List Location) :=
  if respectIgnoreFiles then
    match tree.faultsAbove directory with
    | [] =>
      let userRules := tree.userRules surroundings
      .ok ((tree.filesBelow directory).filter
        (tree.isReached surroundings userRules path directory))
    | faults => .error faults
  else .ok (tree.filesBelow directory)

end FileTree

end Menus
