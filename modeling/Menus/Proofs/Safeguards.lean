import Menus.Proofs.NormalForm

/-!
# Safeguards that are never needed

Pruning looks at what a menu or a submenu collapses to before it goes on. It is prepared for a menu
that is no menu any more and for a submenu that has given way to a separator, and it goes on with a
submenu as if that always had a name. This file prunes without these safeguards, so that each such
case is a failure of the whole run, and shows that no run fails. Collapsing alone sees to that: it
gives none of these shapes, whatever the entries are. What pruning itself adds is that a list
never becomes a separator, and that a group never becomes a menu or a submenu when its first items
are dropped.
-/

namespace Menus

namespace Node

/-- A shape that a safeguard of pruning is for, or that would need one. -/
inductive Mishap where
  /-- A menu has collapsed to something else. -/
  | menuLost
  /-- A submenu has collapsed to one without a name. -/
  | nameLost
  /-- A submenu has collapsed to a separator. -/
  | separatorLeft
  deriving DecidableEq

/-- A menu of pruned entries, which has to be a menu still when it has collapsed. -/
def unguardedMenu (entries : List Node) : Except Mishap Node :=
  let collapsed := (menu entries).collapse
  if collapsed.isMenu then .ok (menu (tidySeparators collapsed.items.tail)) else .error .menuLost

/-- A submenu of pruned entries. If it is a submenu still when it has collapsed, then its entries
come after two items that have to be there. -/
def unguardedSubmenu? (name : Node) (entries : List Node) : Except Mishap (Option Node) :=
  let collapsed := (submenu name entries).collapse
  if collapsed.isSubmenu then
    match collapsed.items with
    | head :: name :: entries =>
      let kept := tidySeparators entries
      .ok (if kept.all isSeparator then none else some (.list (head :: name :: kept)))
    | _ => .error .nameLost
  else if collapsed.isSeparator then .error .separatorLeft
  else .ok (some collapsed)

mutual

/-- Pruning without safeguards: a mishap anywhere in the tree ends the run. -/
def pruneUnguarded : Node → Except Mishap (Option Node)
  | .atom text => .ok (if isKeptText text then some (.atom text) else none)
  | .list [] => .ok (prunedGroup? [])
  | .list (head :: items) =>
    if head = menuHead then do
      (unguardedMenu (← pruneAllUnguarded items)).map some
    else if head = submenuHead then
      match items with
      | [] => .ok none
      | name :: entries => do unguardedSubmenu? name (← pruneAllUnguarded entries)
    else do
      return prunedGroup? (← pruneAllUnguarded (head :: items))

/-- What some items contribute, as long as there is no mishap in one of them. -/
def pruneAllUnguarded : List Node → Except Mishap (List Node)
  | [] => .ok []
  | item :: items => do
    let first ← item.pruneUnguarded
    let others ← pruneAllUnguarded items
    return first.toList ++ others

end

/-! ### What collapsing comes back with -/

/-- Collapsing keeps a menu a menu. -/
theorem isMenu_collapse_menu (entries : List Node) : (menu entries).collapse.isMenu = true := by
  rw [collapse_menu, isMenu_menu]

/-- The entry that a submenu gives way to is no submenu without a name, since that has no entry. -/
theorem exists_collapse_eq_submenu {name : Node} {entries : List Node}
    (hsubmenu : (submenu name entries).collapse.isSubmenu = true) :
    ∃ kept inner, (submenu name entries).collapse = submenu kept inner := by
  obtain ⟨entry, -, hgives, hcollapsed⟩ | hcollapsed := collapse_submenu_cases name entries
  · rw [hcollapsed] at hsubmenu ⊢
    obtain rfl | ⟨kept, hentry⟩ := eq_of_isSubmenu hsubmenu
    · obtain ⟨-, inner, hinner⟩ := isWrapper_iff.mp (hgives hsubmenu)
      rw [entries_nameless] at hinner
      cases hinner
    · exact ⟨kept, entry.entries, hentry⟩
  · exact ⟨name, entries.map collapseEntry, hcollapsed⟩

/-- A submenu never gives way to a separator, since separators do not count as its only entry. -/
theorem collapse_submenu_ne_separator (name : Node) (entries : List Node) :
    (submenu name entries).collapse ≠ separator := by
  obtain ⟨entry, hsole, -, hcollapsed⟩ | hcollapsed := collapse_submenu_cases name entries
  · rw [hcollapsed]
    exact (mem_of_sole? hsole).2
  · rw [hcollapsed]
    exact nofun

/-! ### Runs without safeguards -/

/-- Pruning a menu without safeguards gives the pruned menu. -/
theorem unguardedMenu_eq (entries : List Node) :
    unguardedMenu entries = .ok (prunedMenu entries) := by
  simp [unguardedMenu, prunedMenu, isMenu_collapse_menu]

/-- Pruning a submenu without safeguards gives the pruned submenu. -/
theorem unguardedSubmenu?_eq (name : Node) (entries : List Node) :
    unguardedSubmenu? name entries = .ok (prunedSubmenu? name entries) := by
  rw [unguardedSubmenu?, prunedSubmenu?]
  by_cases hsubmenu : (submenu name entries).collapse.isSubmenu = true
  · obtain ⟨kept, inner, hcollapsed⟩ := exists_collapse_eq_submenu hsubmenu
    rw [hcollapsed, if_pos (isSubmenu_submenu kept inner), if_pos (isSubmenu_submenu kept inner)]
    rfl
  · have hseparator : ¬(submenu name entries).collapse.isSeparator = true :=
      isSeparator_iff.not.mpr (collapse_submenu_ne_separator name entries)
    simp [hsubmenu, hseparator]

/-- If that is so for each item, it is so for the list. -/
private theorem pruneAllUnguarded_eq {items : List Node}
    (hitems : ∀ item ∈ items, item.pruneUnguarded = .ok item.prune) :
    pruneAllUnguarded items = .ok (items.filterMap prune) := by
  rw [← pruneAll_eq_filterMap]
  induction items with
  | nil => rw [pruneAllUnguarded, pruneAll]
  | cons item items ih =>
    have hothers := ih fun other hother => hitems other (by simp [hother])
    rw [pruneAllUnguarded, hitems item (by simp), hothers, pruneAll]
    rfl

/-- A run without safeguards never fails, and it prunes to the same. As the entries are pruned
without a mishap, only the step of the node itself is left. -/
theorem pruneUnguarded_eq (node : Node) : node.pruneUnguarded = .ok node.prune := by
  have hhead : submenuHead ≠ menuHead := by simp [menuHead, submenuHead]
  induction node using byShape with
  | atom text => rw [pruneUnguarded, prune_atom]
  | menu entries ih =>
    rw [prune_menu, menu, pruneUnguarded.eq_def]
    simp only [if_true, pruneAllUnguarded_eq ih]
    change (unguardedMenu _).map some = _
    rw [unguardedMenu_eq, Except.map]
  | nameless => rw [prune_nameless, pruneUnguarded, if_neg hhead, if_pos rfl]
  | submenu name entries _ ih =>
    rw [prune_submenu, submenu, pruneUnguarded.eq_def]
    simp only [if_neg hhead, if_true, pruneAllUnguarded_eq ih]
    exact unguardedSubmenu?_eq name _
  | group items hgroup ih =>
    rw [prune_group hgroup]
    cases items with
    | nil => rw [pruneUnguarded, List.filterMap_nil]
    | cons head rest =>
      rw [pruneUnguarded.eq_def]
      simp only [if_neg hgroup.ne_menuHead, if_neg hgroup.ne_submenuHead, pruneAllUnguarded_eq ih]
      rfl

/-! ### What a list is pruned to -/

/-- Only a separator is pruned to a separator. -/
theorem Prunes.ne_separator {node pruned : Node} (h : Prunes node pruned)
    (hnode : node ≠ separator) : pruned ≠ separator := by
  cases h with
  | atom => exact hnode
  | menu => exact nofun
  | sole _ hsole => exact (mem_of_sole? hsole).2
  | submenu => exact nofun
  | group => exact nofun

/-- A reduced tree is no submenu without a name. -/
theorem Reduced.ne_nameless {node : Node} (h : node.Reduced) : node ≠ .list [submenuHead] := by
  rintro rfl
  obtain ⟨name, entries, hnode, -⟩ := h.eq_submenu (by simp [isSubmenu])
  cases hnode

/-- A group is pruned to a group, whichever of its items are dropped: what is left is reduced, so
none of it is a head. -/
theorem prune_group_eq_some {items : List Node} (hgroup : IsGroup items) {pruned : Node}
    (h : (Node.list items).prune = some pruned) : ∃ kept, pruned = .list kept ∧ IsGroup kept := by
  rw [prune_group hgroup, prunedGroup?_eq] at h
  split at h
  · cases h
  · cases h
    exact ⟨_, rfl, isGroup_of_reduced
      (reduced_of_mem_tidySeparators (reduced_of_mem_filterMap_prune items))⟩

/-- **No safeguard of pruning is ever needed.** Whatever the tree is, pruning it without safeguards
comes to the same and does not fail in any of its lists. A menu collapses to a menu. If a submenu
collapses to a submenu, then that has at least a head and a name, and it never collapses to a
separator; this is so for any entries, and therefore for the pruned ones of each list on the way. A
list is never pruned to a separator nor to a submenu without a name, and a group is pruned neither
to a menu nor to a submenu. -/
theorem prune_needs_no_safeguard :
    (∀ node : Node, node.pruneUnguarded = .ok node.prune) ∧
      (∀ entries, (menu entries).collapse.isMenu = true) ∧
      (∀ name entries,
        ((submenu name entries).collapse.isSubmenu = true →
          2 ≤ (submenu name entries).collapse.items.length) ∧
        ¬(submenu name entries).collapse.isSeparator = true) ∧
      (∀ items pruned, (Node.list items).prune = some pruned →
        ¬pruned.isSeparator = true ∧ pruned ≠ .list [submenuHead]) ∧
      ∀ items pruned, IsGroup items → (Node.list items).prune = some pruned →
        ¬pruned.isMenu = true ∧ ¬pruned.isSubmenu = true := by
  refine ⟨pruneUnguarded_eq, isMenu_collapse_menu, fun name entries => ⟨?_, ?_⟩, ?_, ?_⟩
  · intro hsubmenu
    obtain ⟨kept, inner, hcollapsed⟩ := exists_collapse_eq_submenu hsubmenu
    rw [hcollapsed]
    simp [submenu]
  · rw [isSeparator_iff]
    exact collapse_submenu_ne_separator name entries
  · intro items pruned h
    have hlist : Node.list items ≠ separator := by simp [separator]
    rw [isSeparator_iff]
    exact ⟨(prunes_of_prune h).ne_separator hlist, (reduced_of_prune h).ne_nameless⟩
  · intro items pruned hgroup h
    obtain ⟨kept, rfl, hkept⟩ := prune_group_eq_some hgroup h
    simp [isMenu_group hkept, isSubmenu_group hkept]

/-- A submenu that gives way to the submenu in it, one with nothing but separators and a submenu
without a name, and a group that would be a menu if its first item were dropped alone. -/
theorem prune_needs_no_safeguard_of_headless_group :
    (menu [submenu (.atom "a") [separator, submenu (.atom "b") [submenu (.atom "c")
          [.atom "snippet.x", .atom "snippet.y"]]],
        submenu (.atom "d") [separator, .list [submenuHead]],
        .list [.atom "lost", menuHead, .atom "snippet.z"]]).pruneUnguarded =
      .ok (some (menu [submenu (.atom "b") [submenu (.atom "c")
          [.atom "snippet.x", .atom "snippet.y"]], .list [.atom "snippet.z"]])) ∧
    (submenu (.atom "a") [separator, submenu (.atom "b") [submenu (.atom "c")
      [.atom "snippet.x", .atom "snippet.y"]]]).collapse.isSubmenu = true ∧
    2 ≤ (submenu (.atom "a") [separator, submenu (.atom "b") [submenu (.atom "c")
      [.atom "snippet.x", .atom "snippet.y"]]]).collapse.items.length ∧
    IsGroup [.atom "lost", menuHead, .atom "snippet.z"] ∧
    (Node.list [.atom "lost", menuHead, .atom "snippet.z"]).prune =
      some (.list [.atom "snippet.z"]) ∧
    Node.list [.atom "snippet.z"] ≠ .list [submenuHead] ∧
    ¬(Node.list [.atom "snippet.z"]).isMenu = true := by
  obtain ⟨hrun, -, hcollapse, hlist, hgroup⟩ := prune_needs_no_safeguard
  have hsubmenu : (submenu (.atom "a") [separator, submenu (.atom "b") [submenu (.atom "c")
      [.atom "snippet.x", .atom "snippet.y"]]]).collapse.isSubmenu = true := by decide
  have hitems : IsGroup [.atom "lost", menuHead, .atom "snippet.z"] := ⟨by decide, by decide⟩
  have hpruned : (Node.list [.atom "lost", menuHead, .atom "snippet.z"]).prune =
      some (.list [.atom "snippet.z"]) := by decide
  exact ⟨(hrun _).trans (congrArg Except.ok (by decide)), hsubmenu, (hcollapse _ _).1 hsubmenu,
    hitems, hpruned, (hlist _ _ hpruned).2, (hgroup _ _ hitems hpruned).1⟩

end Node

end Menus
