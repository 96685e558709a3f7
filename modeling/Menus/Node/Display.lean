import Menus.Node
import Menus.Text.Quoted

/-!
# Trees shown for inspection

Two indented renderings of a whole tree, or of the absence of one: an outline that names every
constructor, and JSON in which an atom is an object with the key `atom` and a list is an object
with the key `list`.
-/

namespace Menus

/-- The blanks that set a line in by a number of steps. -/
def indentation (step level : Nat) : String := String.ofList (List.replicate (step * level) ' ')

/-- A new line, set in. -/
def newLine (step level : Nat) : String := "\n" ++ indentation step level

namespace Node

mutual

/-- The outline of a node whose first line is set in by `level` steps of four columns. -/
def outline (level : Nat) : Node → String
  | .atom text =>
    "Atom(" ++ newLine 4 (level + 1) ++ displayedText text ++ "," ++ newLine 4 level ++ ")"
  | .list [] => "List(" ++ newLine 4 (level + 1) ++ "[]," ++ newLine 4 level ++ ")"
  | .list (item :: items) =>
    "List(" ++ newLine 4 (level + 1) ++ "[" ++ outlineAll (level + 2) (item :: items)
      ++ newLine 4 (level + 1) ++ "]," ++ newLine 4 level ++ ")"

/-- The outlines of some items, each on lines of its own. -/
def outlineAll (level : Nat) : List Node → String
  | [] => ""
  | item :: items => newLine 4 level ++ item.outline level ++ "," ++ outlineAll level items

end

mutual

/-- The JSON of a node whose first line is set in by `level` steps of two columns. -/
def json (level : Nat) : Node → String
  | .atom text =>
    "\x7b" ++ newLine 2 (level + 1) ++ "\"atom\": " ++ jsonText text ++ newLine 2 level ++ "\x7d"
  | .list [] => "\x7b" ++ newLine 2 (level + 1) ++ "\"list\": []" ++ newLine 2 level ++ "\x7d"
  | .list (item :: items) =>
    "\x7b" ++ newLine 2 (level + 1) ++ "\"list\": [" ++ newLine 2 (level + 2)
      ++ item.json (level + 2) ++ jsonOthers (level + 2) items
      ++ newLine 2 (level + 1) ++ "]" ++ newLine 2 level ++ "\x7d"

/-- The JSON of the items after the first one, each on lines of its own. -/
def jsonOthers (level : Nat) : List Node → String
  | [] => ""
  | item :: items => "," ++ newLine 2 level ++ item.json level ++ jsonOthers level items

end

end Node

/-- The outline of a tree that may be missing. -/
def outlineTree : Option Node → String
  | none => "None"
  | some node => "Some(" ++ newLine 4 1 ++ node.outline 1 ++ "," ++ newLine 4 0 ++ ")"

/-- The JSON of a tree that may be missing. -/
def jsonTree : Option Node → String
  | none => "null"
  | some node => node.json 0

end Menus
