import Menus.Node

/-!
# Submenus with a single entry

A submenu that leads to a single entry only costs the user a step. Collapsing works from the inside
out and looks at the entries that are not separators:

- a menu whose only entry is a submenu takes over the entries of that submenu, and so on inwards;
- a submenu whose only entry is not a submenu gives way to that entry;
- a submenu whose only entry is a submenu stays if that one offers a choice, and gives way to it if
  that one has a single entry too.
-/

namespace Menus

/-- The only entry that is not a separator, if there is exactly one. -/
def sole? (entries : List Node) : Option Node :=
  match entries.filter (!·.isSeparator) with
  | [entry] => some entry
  | _ => none

namespace Node

/-- A submenu with a single entry. -/
def isWrapper (node : Node) : Bool := node.isSubmenu && (sole? node.entries).isSome

mutual

/-- The entries that a menu takes over from a submenu which is its only entry. -/
def yielded? : Node → Option (List Node)
  | .list (head :: items) =>
    if head = submenuHead then
      match items with
      | [] => some []
      | _ :: entries => some ((yieldedBySole? entries).getD entries)
    else none
  | _ => none

/-- The entries that are taken over from the sole entry of a list, if that is a submenu. -/
def yieldedBySole? : List Node → Option (List Node)
  | [] => none
  | entry :: entries =>
    if entry.isSeparator then yieldedBySole? entries
    else if entries.all isSeparator then entry.yielded?
    else none

end

/-- The entries of a menu once it has taken over those of its only submenu. -/
def absorb (entries : List Node) : List Node := (yieldedBySole? entries).getD entries

/-- A named submenu, or the entry that replaces it. -/
def unwrap (name : Node) (entries : List Node) : Node :=
  match sole? entries with
  | some entry => if !entry.isSubmenu || entry.isWrapper then entry else submenu name entries
  | none => submenu name entries

mutual

/-- Collapse the submenus with a single entry in a menu or in a named submenu; every other node is
left as it is. -/
def collapse : Node → Node
  | .list (head :: items) =>
    if head = menuHead then menu (absorb (collapseSubmenus items))
    else if head = submenuHead then
      match items with
      | [] => .list [head]
      | name :: entries => unwrap name (collapseSubmenus entries)
    else .list (head :: items)
  | node => node

/-- Collapse the submenus among some entries. -/
def collapseSubmenus : List Node → List Node
  | [] => []
  | entry :: entries =>
    (if entry.isSubmenu then entry.collapse else entry) :: collapseSubmenus entries

end

end Node

end Menus
