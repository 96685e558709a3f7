import Menus.Node
import Mathlib.Logic.Relation

/-!
# Induction over menu trees

A list is classified by its first item, so a statement about all trees has one case for each
classification. This file gives that induction, and the measures of a tree that later files compare
before and after a reduction: its snippets, all of its atoms, its depth, and the trees inside it.
-/

namespace Menus

namespace Node

/-- Items whose list is neither a menu nor a submenu. -/
def IsGroup (items : List Node) : Prop :=
  items.head? ≠ some menuHead ∧ items.head? ≠ some submenuHead

/-- A group does not start like a menu. -/
theorem IsGroup.ne_menuHead {head : Node} {items : List Node} (h : IsGroup (head :: items)) :
    head ≠ menuHead := by
  simpa using h.1

/-- A group does not start like a submenu. -/
theorem IsGroup.ne_submenuHead {head : Node} {items : List Node} (h : IsGroup (head :: items)) :
    head ≠ submenuHead := by
  simpa using h.2

/-- Every list is a menu, a submenu with or without a name, or a group. -/
theorem list_cases (items : List Node) :
    (∃ entries, items = menuHead :: entries) ∨ items = [submenuHead] ∨
      (∃ name entries, items = submenuHead :: name :: entries) ∨ IsGroup items := by
  cases items with
  | nil => simp [IsGroup]
  | cons head rest =>
    by_cases hmenu : head = menuHead
    · exact Or.inl ⟨rest, by rw [hmenu]⟩
    · by_cases hsubmenu : head = submenuHead
      · subst hsubmenu
        cases rest with
        | nil => simp
        | cons name entries => simp
      · exact Or.inr (Or.inr (Or.inr ⟨by simpa using hmenu, by simpa using hsubmenu⟩))

/-- Induction over a tree: a list has a property when all of its items have it. The companion
statement of the recursor speaks of every item. -/
@[elab_as_elim] theorem byItems {motive : Node → Prop} (atom : ∀ text, motive (.atom text))
    (list : ∀ items, (∀ item ∈ items, motive item) → motive (.list items))
    (node : Node) : motive node :=
  @Node.rec motive (fun items => ∀ item ∈ items, motive item) atom list (by simp)
    (fun item items hitem hitems => by simpa using ⟨hitem, hitems⟩) node

/-- Induction over a tree by the classification of its lists. A submenu is reduced to its entries
and to its name, which may be a list of its own. -/
@[elab_as_elim] theorem byShape {motive : Node → Prop}
    (atom : ∀ text, motive (.atom text))
    (menu : ∀ entries, (∀ entry ∈ entries, motive entry) → motive (.menu entries))
    (nameless : motive (.list [submenuHead]))
    (submenu : ∀ name entries, motive name → (∀ entry ∈ entries, motive entry) →
      motive (.submenu name entries))
    (group : ∀ items, IsGroup items → (∀ item ∈ items, motive item) → motive (.list items))
    (node : Node) : motive node := by
  induction node using byItems with
  | atom text => exact atom text
  | list items ih =>
    obtain ⟨entries, rfl⟩ | rfl | ⟨name, entries, rfl⟩ | hgroup := list_cases items
    · exact menu entries fun entry hentry => ih entry (by simp [hentry])
    · exact nameless
    · exact submenu name entries (ih name (by simp)) fun entry hentry => ih entry (by simp [hentry])
    · exact group items hgroup ih

/-! ### The parts of a classified node -/

/-- The separator is a separator. -/
@[simp] theorem isSeparator_separator : separator.isSeparator = true := by
  simp [isSeparator]

/-- No list is a separator. -/
@[simp] theorem isSeparator_list (items : List Node) : (Node.list items).isSeparator = false := by
  simp [isSeparator, separator]

/-- No atom is a submenu. -/
@[simp] theorem isSubmenu_atom (text : String) : (Node.atom text).isSubmenu = false := by
  simp [isSubmenu]

/-- No menu is a submenu. -/
@[simp] theorem isSubmenu_menu (entries : List Node) : (menu entries).isSubmenu = false := by
  simp [isSubmenu, menu, menuHead, submenuHead]

/-- A list with the head of a submenu is a submenu. -/
@[simp] theorem isSubmenu_submenu (name : Node) (entries : List Node) :
    (submenu name entries).isSubmenu = true := by
  simp [isSubmenu, submenu]

/-- A list with the head of a menu is a menu. -/
@[simp] theorem isMenu_menu (entries : List Node) : (menu entries).isMenu = true := by
  simp [isMenu, menu]

/-- No atom is a menu. -/
@[simp] theorem isMenu_atom (text : String) : (Node.atom text).isMenu = false := by
  simp [isMenu]

/-- No submenu is a menu. -/
@[simp] theorem isMenu_submenu (name : Node) (entries : List Node) :
    (submenu name entries).isMenu = false := by
  simp [isMenu, submenu, menuHead, submenuHead]

/-- A group is no submenu. -/
theorem isSubmenu_group {items : List Node} (hgroup : IsGroup items) :
    (Node.list items).isSubmenu = false := decide_eq_false hgroup.2

/-- A group is no menu. -/
theorem isMenu_group {items : List Node} (hgroup : IsGroup items) :
    (Node.list items).isMenu = false := decide_eq_false hgroup.1

/-- A group has the shape of one. -/
theorem shape_group {items : List Node} (hgroup : IsGroup items) :
    (Node.list items).shape = .group items := by
  cases items with
  | nil => rfl
  | cons head rest =>
    simp [shape, hgroup.ne_menuHead, hgroup.ne_submenuHead]

/-- An atom has no entries. -/
@[simp] theorem entries_atom (text : String) : (Node.atom text).entries = [] := rfl

/-- All items of a menu behind its head are entries. -/
@[simp] theorem entries_menu (entries : List Node) : (menu entries).entries = entries := by
  simp [Node.entries]

/-- All items of a submenu behind its name are entries. -/
@[simp] theorem entries_submenu (name : Node) (entries : List Node) :
    (submenu name entries).entries = entries := by
  simp [Node.entries]

/-- A submenu without a name has no entries. -/
@[simp] theorem entries_nameless : (Node.list [submenuHead]).entries = [] := by
  simp [Node.entries, shape, menuHead, submenuHead]

/-- All items of a group are entries. -/
theorem entries_group {items : List Node} (hgroup : IsGroup items) :
    (Node.list items).entries = items := by
  simp [Node.entries, shape_group hgroup]

/-- A submenu is just `(submenu)`, or it has a name before its entries. -/
theorem eq_of_isSubmenu {node : Node} (hsubmenu : node.isSubmenu) :
    node = .list [submenuHead] ∨ ∃ name, node = submenu name node.entries := by
  cases node using byShape with
  | atom text => simp at hsubmenu
  | menu entries => simp at hsubmenu
  | nameless => exact Or.inl rfl
  | submenu name entries => exact Or.inr ⟨name, by simp⟩
  | group items hgroup => simp [isSubmenu_group hgroup] at hsubmenu

/-- A menu is its entries after its head. -/
theorem eq_of_isMenu {node : Node} (hmenu : node.isMenu) : node = menu node.entries := by
  cases node using byShape with
  | atom text => simp at hmenu
  | menu entries => simp
  | nameless => simp [isMenu, menuHead, submenuHead] at hmenu
  | submenu name entries => simp at hmenu
  | group items hgroup => simp [isMenu_group hgroup] at hmenu

/-- A submenu is no menu. -/
theorem not_isMenu_of_isSubmenu {node : Node} (hsubmenu : node.isSubmenu) : ¬node.isMenu := by
  intro hmenu
  rw [eq_of_isMenu hmenu, isSubmenu_menu] at hsubmenu
  cases hsubmenu

/-- The entries of a node come from its items, in the same order. -/
theorem entries_sublist (node : Node) : node.entries.Sublist node.items := by
  cases node using byShape with
  | atom text => simp
  | menu entries => rw [entries_menu]; exact List.sublist_cons_self _ _
  | nameless => simp
  | submenu name entries =>
    rw [entries_submenu]
    exact (List.sublist_cons_self _ _).trans (List.sublist_cons_self _ _)
  | group items hgroup => simp [entries_group hgroup]

/-! ### Snippets, atoms and depth -/

mutual

/-- The snippets among the entries of a tree, in document order. A head or a name is no entry. -/
def snippets : Node → List String
  | .atom text => if isSnippetText text then [text] else []
  | .list [] => []
  | .list (head :: items) =>
    if head = menuHead then snippetsOfAll items
    else if head = submenuHead then
      match items with
      | [] => []
      | _ :: entries => snippetsOfAll entries
    else head.snippets ++ snippetsOfAll items

/-- The snippets of some entries, one entry after the other. -/
def snippetsOfAll : List Node → List String
  | [] => []
  | item :: items => item.snippets ++ snippetsOfAll items

end

mutual

/-- The texts of all atoms in document order, heads and names included. -/
def atoms : Node → List String
  | .atom text => [text]
  | .list items => atomsOfAll items

/-- The atoms of some items, one item after the other. -/
def atomsOfAll : List Node → List String
  | [] => []
  | item :: items => item.atoms ++ atomsOfAll items

end

mutual

/-- The deepest nesting of lists in a tree. -/
def depth : Node → Nat
  | .atom _ => 0
  | .list items => depthOfAll items + 1

/-- The deepest nesting of lists in some items. -/
def depthOfAll : List Node → Nat
  | [] => 0
  | item :: items => max item.depth (depthOfAll items)

end

/-- The snippets of items are those of each of them. -/
theorem snippetsOfAll_eq (items : List Node) : snippetsOfAll items = items.flatMap snippets := by
  induction items with
  | nil => rfl
  | cons item items ih => simp [snippetsOfAll, ih]

/-- The atoms of items are those of each of them. -/
theorem atomsOfAll_eq (items : List Node) : atomsOfAll items = items.flatMap atoms := by
  induction items with
  | nil => rfl
  | cons item items ih => simp [atomsOfAll, ih]

/-- The snippets of a list are those of its entries. -/
theorem snippets_list (items : List Node) :
    (Node.list items).snippets = (Node.list items).entries.flatMap snippets := by
  obtain ⟨entries, rfl⟩ | rfl | ⟨name, entries, rfl⟩ | hgroup := list_cases items
  · rw [← menu, entries_menu]
    simp [menu, snippets, snippetsOfAll_eq]
  · rw [entries_nameless]
    simp [snippets, menuHead, submenuHead]
  · rw [← submenu, entries_submenu]
    simp [submenu, snippets, menuHead, submenuHead, snippetsOfAll_eq]
  · rw [entries_group hgroup]
    cases items with
    | nil => rfl
    | cons head rest =>
      rw [snippets.eq_def]
      simp only [if_neg hgroup.ne_menuHead, if_neg hgroup.ne_submenuHead, snippetsOfAll_eq,
        List.flatMap_cons]

/-- A menu has the snippets of its entries. -/
theorem snippets_menu (entries : List Node) :
    (menu entries).snippets = entries.flatMap snippets := by
  rw [menu, snippets_list, ← menu, entries_menu]

/-- A submenu has the snippets of its entries, for its name is none. -/
theorem snippets_submenu (name : Node) (entries : List Node) :
    (submenu name entries).snippets = entries.flatMap snippets := by
  rw [submenu, snippets_list, ← submenu, entries_submenu]

/-- A group has the snippets of its items. -/
theorem snippets_group {items : List Node} (hgroup : IsGroup items) :
    (Node.list items).snippets = items.flatMap snippets := by
  rw [snippets_list, entries_group hgroup]

/-- The only atom of an atom is its text. -/
@[simp] theorem atoms_atom (text : String) : (Node.atom text).atoms = [text] := by
  simp [atoms]

/-- The atoms of a list are those of its items. -/
@[simp] theorem atoms_list (items : List Node) : (Node.list items).atoms = items.flatMap atoms := by
  simp [atoms, atomsOfAll_eq]

/-- The atoms of an item are atoms of its list. -/
theorem mem_atoms_list {items : List Node} {item : Node} {text : String} (hitem : item ∈ items)
    (htext : text ∈ item.atoms) : text ∈ (Node.list items).atoms := by
  rw [atoms_list]
  exact List.mem_flatMap.mpr ⟨item, hitem, htext⟩

/-- Items are as deep as the deepest of them. -/
theorem depthOfAll_le_iff {items : List Node} {n : Nat} :
    depthOfAll items ≤ n ↔ ∀ item ∈ items, item.depth ≤ n := by
  induction items with
  | nil => simp [depthOfAll]
  | cons item items ih => simp only [depthOfAll, Nat.max_le, ih, List.forall_mem_cons]

/-- An atom has no depth. -/
@[simp] theorem depth_atom (text : String) : (Node.atom text).depth = 0 := by
  simp [depth]

/-- A list is one level deeper than its deepest item. -/
theorem depth_list (items : List Node) : (Node.list items).depth = depthOfAll items + 1 := by
  rw [depth]

/-- No item is deeper than all of them. -/
theorem depth_le_depthOfAll {item : Node} {items : List Node} (h : item ∈ items) :
    item.depth ≤ depthOfAll items :=
  depthOfAll_le_iff.mp (Nat.le_refl _) item h

/-- Every entry is less deep than the node. -/
theorem depth_lt_of_mem_entries {node entry : Node} (h : entry ∈ node.entries) :
    entry.depth < node.depth := by
  cases node with
  | atom text => simp at h
  | list items =>
    rw [depth_list]
    exact Nat.lt_succ_of_le (depth_le_depthOfAll ((entries_sublist _).subset h))

/-! ### Trees inside a tree -/

/-- A tree at any place of another one, names and heads included, or that tree itself. -/
def Contains : Node → Node → Prop := Relation.ReflTransGen fun node item => item ∈ node.items

/-- A tree that is reached through entries only, or the whole tree. -/
def Reaches : Node → Node → Prop := Relation.ReflTransGen fun node entry => entry ∈ node.entries

end Node

end Menus
