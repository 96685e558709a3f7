import Menus.Glob.Matching
import Menus.Settings

/-!
# Which files are menu documents

A file below a directory is a menu document when its name matches one of the patterns to include
and its path from that directory matches none of the patterns to exclude.
-/

namespace Menus

/-- A pattern that cannot be read, and why. -/
structure PatternFailure where
  pattern : String
  error : Glob.PatternError
  deriving DecidableEq, Inhabited

/-- The wording shown to a user. -/
def PatternFailure.message (failure : PatternFailure) : String :=
  s!"error parsing glob '{failure.pattern}': " ++ failure.error.reason

/-- Patterns that were read: for each of them which texts it matches. -/
structure Selection where
  includes : List (String → Bool)
  excludes : List (String → Bool)
  deriving Inhabited

namespace Selection

/-- Read patterns, of which the first that is none is reported. -/
def readAll : List String → Except PatternFailure (List (String → Bool))
  | [] => .ok []
  | pattern :: patterns =>
    match Glob.parse pattern with
    | .error error => .error ⟨pattern, error⟩
    | .ok pieces => (readAll patterns).map ((Glob.isMatch pieces ·) :: ·)

/-- The patterns of some settings. -/
def ofSettings (settings : Settings) : Except PatternFailure Selection := do
  return { includes := ← readAll settings.includes, excludes := ← readAll settings.excludes }

/-- Whether a file found below a root is a menu document. -/
def selects (selection : Selection) (root path : Path) : Bool :=
  match path.fileName? with
  | none => false
  | some name =>
    selection.includes.any (· name) &&
      !selection.excludes.any (· ((path.strip? root).getD path).text)

end Selection

end Menus
