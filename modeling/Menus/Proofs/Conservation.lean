import Menus.Proofs.NormalForm
import Mathlib.Data.List.Flatten

/-!
# What a reduction keeps

Pruning moves entries from submenus into the lists around them. It never loses, repeats or reorders
a snippet, and of the other atoms it only leaves some out. Nor does it nest lists more deeply than
they were. Each of these is followed through the passes over the entries: leaving out items,
absorbing submenus, and tidying separators.
-/

namespace Menus

namespace Node

/-! ### Snippets -/

/-- A separator offers no snippet. -/
private theorem snippets_separator : separator.snippets = [] := by decide

/-- The entries that are no separators have all snippets. -/
private theorem flatMap_snippets_meaningful (entries : List Node) :
    (meaningful entries).flatMap snippets = entries.flatMap snippets :=
  flatMap_meaningful snippets_separator entries

/-- Tidying the separators keeps all snippets. -/
theorem flatMap_snippets_tidySeparators (entries : List Node) :
    (tidySeparators entries).flatMap snippets = entries.flatMap snippets := by
  rw [← flatMap_snippets_meaningful, meaningful_tidySeparators, flatMap_snippets_meaningful]

/-- A sole entry has all snippets. -/
private theorem flatMap_snippets_of_sole? {entries : List Node} {entry : Node}
    (hsole : sole? entries = some entry) : entries.flatMap snippets = entry.snippets :=
  flatMap_of_sole? snippets_separator hsole

/-- Absorbing a sole submenu keeps all snippets. -/
private theorem flatMap_snippets_absorb (entries : List Node) :
    (absorb entries).flatMap snippets = entries.flatMap snippets := by
  refine flatMap_absorb snippets_separator (fun node hsubmenu => ?_) entries
  cases node with
  | atom text => simp at hsubmenu
  | list items => exact snippets_list items

/-- If pruning keeps the snippets of each item, it keeps those of the list. -/
theorem flatMap_snippets_filterMap_prune {items : List Node}
    (ih : ∀ item ∈ items, item.prune.toList.flatMap snippets = item.snippets) :
    (items.filterMap prune).flatMap snippets = items.flatMap snippets := by
  induction items with
  | nil => rfl
  | cons item items ihitems =>
    have hitem := ih item (by simp)
    have hitems := ihitems fun item h => ih item (by simp [h])
    cases h : item.prune with
    | none =>
      rw [List.filterMap_cons_none h, hitems, List.flatMap_cons, ← hitem, h]
      rfl
    | some pruned =>
      rw [List.filterMap_cons_some h, List.flatMap_cons, hitems, List.flatMap_cons, ← hitem, h]
      simp

/-- What a node contributes to its parent has the same snippets as the node. -/
theorem flatMap_snippets_prune (node : Node) :
    node.prune.toList.flatMap snippets = node.snippets := by
  induction node using byShape with
  | atom text =>
    rw [prune_atom]
    by_cases hsnippet : isSnippetText text = true
    · simp [isKeptText, snippets, hsnippet]
    · by_cases hkept : isKeptText text = true <;> simp [snippets, hsnippet, hkept]
  | menu entries ih =>
    rw [prune_menu, prunedMenu_eq (reduced_of_mem_filterMap_prune entries), Option.toList_some,
      List.flatMap_singleton, snippets_menu, flatMap_snippets_tidySeparators,
      flatMap_snippets_absorb, flatMap_snippets_filterMap_prune ih, snippets_menu]
  | nameless => rfl
  | submenu name entries _ ih =>
    rw [prune_submenu, snippets_submenu, ← flatMap_snippets_filterMap_prune ih]
    obtain ⟨hcontent, hpruned⟩ | ⟨entry, hsole, hpruned⟩ | ⟨_, _, hpruned⟩ :=
      prunedSubmenu?_cases name (reduced_of_mem_filterMap_prune entries)
    · rw [hpruned, ← flatMap_snippets_meaningful (entries.filterMap prune), hcontent]
      rfl
    · rw [hpruned, flatMap_snippets_of_sole? hsole, Option.toList_some, List.flatMap_singleton]
    · rw [hpruned, Option.toList_some, List.flatMap_singleton, snippets_submenu,
        flatMap_snippets_tidySeparators]
  | group items hgroup ih =>
    have hkept := reduced_of_mem_tidySeparators (reduced_of_mem_filterMap_prune items)
    rw [prune_group hgroup, prunedGroup?_eq, snippets_group hgroup,
      ← flatMap_snippets_filterMap_prune ih]
    by_cases hcontent : meaningful (items.filterMap prune) = []
    · rw [if_pos hcontent, ← flatMap_snippets_meaningful (items.filterMap prune), hcontent]
      rfl
    · rw [if_neg hcontent, Option.toList_some, List.flatMap_singleton,
        snippets_group (isGroup_of_reduced hkept), flatMap_snippets_tidySeparators]

/-! ### Parts that follow each other in a tree -/

section

variable {α : Type*} {parts : Node → List α}

/-- The parts of an item are some of those of all items. -/
theorem parts_sublist_of_mem {item : Node} {items : List Node} (h : item ∈ items) :
    (parts item).Sublist (items.flatMap parts) := by
  rw [List.flatMap_def]
  exact List.sublist_flatten_of_mem (List.mem_map_of_mem h)

/-- If the entries of a node have no other parts than the node, then a menu has no other parts after
it has taken over the entries of its only submenu. -/
theorem flatMap_absorb_sublist
    (hentries : ∀ node : Node, (node.entries.flatMap parts).Sublist (parts node))
    (entries : List Node) : ((absorb entries).flatMap parts).Sublist (entries.flatMap parts) := by
  refine absorb_invariant
    (motive := fun taken => (taken.flatMap parts).Sublist (entries.flatMap parts)) ?_ (.refl _)
  intro taken entry htaken hsole _
  have hentry : (parts entry).Sublist (taken.flatMap parts) :=
    parts_sublist_of_mem (mem_of_sole? hsole).1
  exact (hentries entry).trans (hentry.trans htaken)

/-- If pruning adds nothing to any item, it adds nothing to the list. -/
theorem flatMap_filterMap_prune_sublist {items : List Node}
    (ih : ∀ item ∈ items, ∀ pruned, item.prune = some pruned →
      (parts pruned).Sublist (parts item)) :
    ((items.filterMap prune).flatMap parts).Sublist (items.flatMap parts) := by
  induction items with
  | nil => exact .refl _
  | cons item items ihitems =>
    have hitems := ihitems fun item h => ih item (by simp [h])
    rw [List.flatMap_cons]
    cases h : item.prune with
    | none =>
      rw [List.filterMap_cons_none h]
      exact hitems.trans (List.sublist_append_right _ _)
    | some pruned =>
      rw [List.filterMap_cons_some h, List.flatMap_cons]
      exact (ih item (by simp) pruned h).append hitems

end

/-! ### Atoms -/

/-- The atoms of the entries are among those of the node. -/
private theorem flatMap_atoms_entries (node : Node) :
    (node.entries.flatMap atoms).Sublist node.atoms := by
  cases node with
  | atom text => simp
  | list items =>
    rw [atoms_list]
    exact (entries_sublist _).flatMap atoms

/-- Pruning leaves out atoms, and changes nothing else about them. -/
theorem Prunes.atoms_sublist {node pruned : Node} (h : Prunes node pruned) :
    pruned.atoms.Sublist node.atoms := by
  induction h with
  | atom => exact .refl _
  | @menu entries hentries ih =>
    have htidy := (tidySeparators_sublist (absorb (entries.filterMap prune))).flatMap atoms
    have hentries := htidy.trans ((flatMap_absorb_sublist flatMap_atoms_entries _).trans
      (flatMap_filterMap_prune_sublist ih))
    simpa [Node.menu] using hentries
  | @sole name entry entries hentries hsole ih =>
    have hentry : entry.atoms.Sublist _ := parts_sublist_of_mem (mem_of_sole? hsole).1
    have hall := flatMap_atoms_entries (Node.submenu name entries)
    rw [entries_submenu] at hall
    exact hentry.trans ((flatMap_filterMap_prune_sublist ih).trans hall)
  | @submenu name entries hentries hcontent hsole ih =>
    have htidy := (tidySeparators_sublist (entries.filterMap prune)).flatMap atoms
    have hentries := htidy.trans (flatMap_filterMap_prune_sublist ih)
    simpa [Node.submenu] using hentries.append_left name.atoms
  | @group items hgroup hitems hcontent ih =>
    have htidy := (tidySeparators_sublist (items.filterMap prune)).flatMap atoms
    rw [atoms_list, atoms_list]
    exact htidy.trans (flatMap_filterMap_prune_sublist ih)

/-! ### Depth -/

/-- If pruning deepens no item, what is kept is no deeper than the list was. -/
private theorem depth_le_of_mem_filterMap_prune {items : List Node}
    (ih : ∀ item ∈ items, ∀ pruned, item.prune = some pruned → pruned.depth ≤ item.depth) :
    ∀ entry ∈ items.filterMap prune, entry.depth ≤ depthOfAll items := by
  intro entry hentry
  obtain ⟨item, hitem, hpruned⟩ := List.mem_filterMap.mp hentry
  exact (ih item hitem entry hpruned).trans (depth_le_depthOfAll hitem)

/-- Tidying the separators deepens nothing. -/
private theorem depthOfAll_tidySeparators_le {entries : List Node} {n : Nat}
    (hentries : ∀ entry ∈ entries, entry.depth ≤ n) : depthOfAll (tidySeparators entries) ≤ n :=
  depthOfAll_le_iff.mpr fun entry hentry =>
    hentries entry ((tidySeparators_sublist entries).subset hentry)

/-- Pruning does not nest lists more deeply. -/
theorem Prunes.depth_le {node pruned : Node} (h : Prunes node pruned) :
    pruned.depth ≤ node.depth := by
  induction h with
  | atom => exact le_rfl
  | @menu entries hentries ih =>
    have hentries := depthOfAll_tidySeparators_le
      (depth_le_of_mem_absorb (depth_le_of_mem_filterMap_prune ih))
    simp only [Node.menu, depth_list, depthOfAll]
    omega
  | @sole name entry entries hentries hsole ih =>
    have hentry := depth_le_of_mem_filterMap_prune ih entry (mem_of_sole? hsole).1
    simp only [Node.submenu, depth_list, depthOfAll]
    omega
  | @submenu name entries hentries hcontent hsole ih =>
    have hentries := depthOfAll_tidySeparators_le (depth_le_of_mem_filterMap_prune ih)
    simp only [Node.submenu, depth_list, depthOfAll]
    omega
  | @group items hgroup hitems hcontent ih =>
    have hitems := depthOfAll_tidySeparators_le (depth_le_of_mem_filterMap_prune ih)
    rw [depth_list, depth_list]
    omega

/-- Pruning keeps every snippet once and in its place, whatever the shape of the tree: a tree that
is dropped has none. The atoms of the result are some of those of the tree, in the same order. -/
theorem prune_conserves_snippets (node : Node) :
    (node.prune = none → node.snippets = []) ∧
      ∀ pruned, node.prune = some pruned →
        pruned.snippets = node.snippets ∧ pruned.atoms.Sublist node.atoms := by
  have hsnippets := flatMap_snippets_prune node
  constructor
  · intro h
    simpa [h] using hsnippets.symm
  · intro pruned h
    exact ⟨by simpa [h] using hsnippets, (prunes_of_prune h).atoms_sublist⟩

/-- A menu takes over the entries of a submenu of a submenu, and loses no snippet of them. -/
theorem prune_conserves_snippets_of_wrapper_chain :
    (menu [submenu (.atom "a") [.atom "lost", submenu (.atom "b")
        [.atom "snippet.x", separator, separator, .list [.atom "[snippet.y]"]]]]).prune =
      some (menu [.atom "snippet.x", separator, .list [.atom "[snippet.y]"]]) ∧
    (menu [.atom "snippet.x", separator, .list [.atom "[snippet.y]"]]).snippets =
      (menu [submenu (.atom "a") [.atom "lost", submenu (.atom "b")
        [.atom "snippet.x", separator, separator, .list [.atom "[snippet.y]"]]]]).snippets ∧
    (submenu (.atom "a") [separator, .atom "lost"]).snippets = [] := by
  have hpruned : (menu [submenu (.atom "a") [.atom "lost", submenu (.atom "b")
      [.atom "snippet.x", separator, separator, .list [.atom "[snippet.y]"]]]]).prune =
        some (menu [.atom "snippet.x", separator, .list [.atom "[snippet.y]"]]) := by decide
  exact ⟨hpruned, ((prune_conserves_snippets _).2 _ hpruned).1,
    (prune_conserves_snippets _).1 (by decide)⟩

end Node

end Menus
