import Menus.Node

/-!
# The written form of a menu tree

Atoms stay on the line of the list that holds them. A list that is an entry of a menu or of a
submenu starts a line of its own, one level deeper than its parent; a submenu that is an entry of a
menu is set in twice as far. The members of a group, submenus included, stay on the group's line.
A submenu has a written form only if its name is an atom.
-/

namespace Menus

/-- Why a tree has no written form. -/
inductive LayoutError where
  /-- A submenu is named by a list. -/
  | nameNotAtom
  /-- A submenu is just `(submenu)`. -/
  | nameMissing
  deriving DecidableEq, Inhabited

/-- The wording shown to a user. -/
def LayoutError.message : LayoutError → String
  | .nameNotAtom => "internal invariant violated: submenu name must be an atom"
  | .nameMissing => "internal invariant violated: submenu without a name"

/-- The two lists whose entries start lines. -/
inductive LineParent where
  | menu
  | submenu
  deriving DecidableEq

/-- The blanks before a list on a line of its own; each level is four columns wide. -/
def LineParent.margin (parent : LineParent) (level : Nat) (entry : Node) : List Char :=
  List.replicate (4 * (if parent = .menu ∧ entry.isSubmenu then level + level else level)) ' '

namespace Node

mutual

/-- The written form of a node from its first character on, for a line at the given level. -/
def layout (level : Nat) : Node → Except LayoutError (List Char)
  | .atom text => .ok text.toList
  | .list [] => .ok ['(', ')']
  | .list (head :: items) =>
    if head = menuHead then do
      let entries ← layoutEntries .menu (level + 1) items
      return '(' :: 'm' :: 'e' :: 'n' :: 'u' :: entries ++ [')']
    else if head = submenuHead then
      match items with
      | [] => .error .nameMissing
      | .list _ :: _ => .error .nameNotAtom
      | .atom name :: items => do
        let entries ← layoutEntries .submenu (level + 1) items
        return "(submenu ".toList ++ name.toList ++ entries ++ [')']
    else do
      let first ← head.layout level
      let others ← layoutOthers level items
      return '(' :: first ++ others ++ [')']

/-- The written form of entries at the given level, each with what comes before it. -/
def layoutEntries (parent : LineParent) (level : Nat) : List Node → Except LayoutError (List Char)
  | [] => .ok []
  | .atom text :: entries => do
    let others ← layoutEntries parent level entries
    return ' ' :: text.toList ++ others
  | .list items :: entries => do
    let first ← (Node.list items).layout level
    let others ← layoutEntries parent level entries
    return '\n' :: parent.margin level (.list items) ++ first ++ others

/-- The written form of the members of a group after its first one. -/
def layoutOthers (level : Nat) : List Node → Except LayoutError (List Char)
  | [] => .ok []
  | item :: items => do
    let first ← item.layout level
    let others ← layoutOthers level items
    return ' ' :: first ++ others

end

/-- The written form of a tree. -/
def print (node : Node) : Except LayoutError String := (node.layout 0).map String.ofList

end Node

end Menus
