import Menus.Node.Collapse
import Menus.Node.Separators

/-!
# Reducing a menu to its snippets

A reduction keeps snippets and separators and whatever holds them together. Entries are pruned
first, then submenus with a single entry collapse, and the separators come last, because collapsing
moves entries next to each other.
-/

namespace Menus

namespace Node

/-- The atoms that are kept. -/
def isKeptText (text : String) : Bool := isSnippetText text || text == "---"

/-- A menu of pruned entries. It is kept even when it has none left. -/
def prunedMenu (entries : List Node) : Node :=
  let collapsed := (menu entries).collapse
  menu (tidySeparators (if collapsed.isMenu then collapsed.items.tail else [collapsed]))

/-- A submenu of pruned entries: what it collapses to, unless nothing but separators is left. -/
def prunedSubmenu? (name : Node) (entries : List Node) : Option Node :=
  let collapsed := (submenu name entries).collapse
  if collapsed.isSubmenu then
    let entries := tidySeparators (collapsed.items.drop 2)
    if entries.all isSeparator then none else some (.list (collapsed.items.take 2 ++ entries))
  else if collapsed.isSeparator then none
  else some collapsed

/-- A group of pruned items, if any are left. -/
def prunedGroup? (items : List Node) : Option Node :=
  match tidySeparators items with
  | [] => none
  | kept => some (.list kept)

mutual

/-- What a node contributes to its parent: nothing at all, or a node of snippets and separators. -/
def prune : Node → Option Node
  | .atom text => if isKeptText text then some (.atom text) else none
  | .list [] => prunedGroup? []
  | .list (head :: items) =>
    if head = menuHead then some (prunedMenu (pruneAll items))
    else if head = submenuHead then
      match items with
      | [] => none
      | name :: entries => prunedSubmenu? name (pruneAll entries)
    else prunedGroup? (pruneAll (head :: items))

/-- What some items contribute, in their order. -/
def pruneAll : List Node → List Node
  | [] => []
  | item :: items => item.prune.toList ++ pruneAll items

end

end Node

/-- The reduced tree of a document: an empty menu when nothing of its root is kept. -/
def reduce (root : Option Node) : Node := (root.bind Node.prune).getD (.menu [])

end Menus
