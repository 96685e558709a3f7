import Menus.Node.Reduce
import Menus.Proofs.Collapsing

/-!
# Reduced trees

Pruning always ends in a tree of one normal form, and leaves every tree of that form as it is. The
normal form is described here entry by entry. Since the entries of a menu or submenu are pruned
before it collapses, everything that collapsing meets is already reduced; the equations of this
file say what is left of the passes over such entries.
-/

namespace Menus

namespace Node

/-- The trees that pruning ends in. A submenu with an only entry has a submenu there that offers a
choice, and a menu with an only entry has no submenu there. -/
inductive Reduced : Node → Prop
  /-- A snippet or a separator. -/
  | atom {text : String} (hkept : isKeptText text = true) : Reduced (.atom text)
  /-- A menu of reduced entries, which may be none. -/
  | menu {entries : List Node} (hentries : ∀ entry ∈ entries, entry.Reduced)
      (htidy : Tidy entries)
      (hsole : ∀ entry, sole? entries = some entry → ¬entry.isSubmenu = true) :
      Reduced (.menu entries)
  /-- A submenu of reduced entries; its name is not looked at. -/
  | submenu {name : Node} {entries : List Node} (hentries : ∀ entry ∈ entries, entry.Reduced)
      (htidy : Tidy entries) (hcontent : meaningful entries ≠ [])
      (hsole : ∀ entry, sole? entries = some entry →
        entry.isSubmenu = true ∧ ¬entry.isWrapper = true) :
      Reduced (.submenu name entries)
  /-- A group of reduced items. -/
  | group {items : List Node} (hgroup : IsGroup items) (hitems : ∀ item ∈ items, item.Reduced)
      (htidy : Tidy items) (hcontent : items ≠ []) : Reduced (.list items)

/-! ### Inside a reduced tree -/

/-- The entries of a reduced tree are reduced. -/
theorem Reduced.of_mem_entries {node entry : Node} (h : node.Reduced)
    (hentry : entry ∈ node.entries) : entry.Reduced := by
  cases h with
  | atom => simp at hentry
  | menu hentries => exact hentries entry (by simpa using hentry)
  | submenu hentries => exact hentries entry (by simpa using hentry)
  | group hgroup hitems => exact hitems entry (by simpa [entries_group hgroup] using hentry)

/-- A reduced submenu has a name and an entry that is no separator; if that is the only one, then it
is a submenu that offers a choice. -/
theorem Reduced.eq_submenu {node : Node} (h : node.Reduced) (hsubmenu : node.isSubmenu = true) :
    ∃ name entries, node = .submenu name entries ∧ Tidy entries ∧ meaningful entries ≠ [] ∧
      ∀ entry, sole? entries = some entry →
        entry.isSubmenu = true ∧ ¬entry.isWrapper = true := by
  cases h with
  | atom => simp at hsubmenu
  | menu => simp at hsubmenu
  | submenu _ htidy hcontent hsole => exact ⟨_, _, rfl, htidy, hcontent, hsole⟩
  | group hgroup => simp [isSubmenu_group hgroup] at hsubmenu

/-! ### Pruning by shape -/

/-- Items are pruned one by one. -/
theorem pruneAll_eq_filterMap (items : List Node) : pruneAll items = items.filterMap prune := by
  induction items with
  | nil => rfl
  | cons item items ih =>
    rw [pruneAll, ih, List.filterMap_cons]
    cases item.prune <;> rfl

/-- An atom is kept for its text. -/
theorem prune_atom (text : String) :
    (Node.atom text).prune = if isKeptText text then some (.atom text) else none := by
  rw [prune]

/-- A menu is kept with what is kept of its entries. -/
theorem prune_menu (entries : List Node) :
    (menu entries).prune = some (prunedMenu (entries.filterMap prune)) := by
  simp [menu, prune, pruneAll_eq_filterMap]

/-- A submenu without a name is dropped. -/
theorem prune_nameless : (Node.list [submenuHead]).prune = none := by
  simp [prune, menuHead, submenuHead]

/-- The entries of a submenu are pruned before it is. -/
theorem prune_submenu (name : Node) (entries : List Node) :
    (submenu name entries).prune = prunedSubmenu? name (entries.filterMap prune) := by
  simp [submenu, prune, menuHead, submenuHead, pruneAll_eq_filterMap]

/-- The items of a group are pruned before it is. -/
theorem prune_group {items : List Node} (hgroup : IsGroup items) :
    (Node.list items).prune = prunedGroup? (items.filterMap prune) := by
  cases items with
  | nil => rw [prune, List.filterMap_nil]
  | cons head rest =>
    rw [prune.eq_def]
    simp only [if_neg hgroup.ne_menuHead, if_neg hgroup.ne_submenuHead, pruneAll_eq_filterMap]

/-! ### Reduced trees stay as they are -/

/-- A reduced tree is no head of a menu or submenu. -/
theorem Reduced.ne_head {node : Node} (h : node.Reduced) :
    node ≠ menuHead ∧ node ≠ submenuHead := by
  constructor
  · rintro rfl
    cases h with
    | atom hkept => exact absurd hkept (by decide)
  · rintro rfl
    cases h with
    | atom hkept => exact absurd hkept (by decide)

/-- Reduced items, taken as a list of their own, are a group. -/
theorem isGroup_of_reduced {items : List Node} (hitems : ∀ item ∈ items, item.Reduced) :
    IsGroup items :=
  ⟨fun hhead => (hitems _ (List.mem_of_mem_head? hhead)).ne_head.1 rfl,
    fun hhead => (hitems _ (List.mem_of_mem_head? hhead)).ne_head.2 rfl⟩

/-- Collapsing has nothing to do in a reduced tree. -/
theorem Reduced.collapse_eq_self {node : Node} (h : node.Reduced) : node.collapse = node := by
  induction h with
  | atom => rfl
  | menu _ _ hsole ih =>
    rw [collapse_menu, map_collapseEntry_eq_self ih, absorb_eq_self hsole]
  | submenu _ _ _ hsole ih =>
    rw [collapse_submenu, map_collapseEntry_eq_self ih, unwrap_eq_submenu _ hsole]
  | group hgroup => exact collapse_group hgroup

/-! ### The passes over reduced entries -/

/-- Reduced entries are left alone by collapsing. -/
private theorem map_collapseEntry_of_reduced {entries : List Node}
    (hentries : ∀ entry ∈ entries, entry.Reduced) : entries.map collapseEntry = entries :=
  map_collapseEntry_eq_self fun entry h => (hentries entry h).collapse_eq_self

/-- A menu of reduced entries takes over what it can, and its separators are tidied. -/
theorem prunedMenu_eq {entries : List Node} (hentries : ∀ entry ∈ entries, entry.Reduced) :
    prunedMenu entries = menu (tidySeparators (absorb entries)) := by
  rw [prunedMenu, collapse_menu, map_collapseEntry_of_reduced hentries]
  simp [menu, isMenu]

/-- A reduced entry that is no submenu with a choice is what is left of a submenu around it. -/
theorem prunedSubmenu?_of_gives_way (name : Node) {entries : List Node} {entry : Node}
    (hentries : ∀ entry ∈ entries, entry.Reduced) (hsole : sole? entries = some entry)
    (hgives : entry.isSubmenu = true → entry.isWrapper = true) :
    prunedSubmenu? name entries = some entry := by
  obtain ⟨hmem, hne⟩ := mem_of_sole? hsole
  rw [prunedSubmenu?, collapse_submenu, map_collapseEntry_of_reduced hentries,
    unwrap_eq_sole name hsole hgives]
  by_cases hsubmenu : entry.isSubmenu = true
  · obtain ⟨inner, entries, rfl, htidy, hcontent, -⟩ := (hentries entry hmem).eq_submenu hsubmenu
    have hall : ¬entries.all isSeparator = true := all_isSeparator_iff.not.mpr hcontent
    simpa [submenu, isSubmenu, htidy.tidySeparators_eq_self] using hall
  · have hseparator : ¬entry.isSeparator = true := isSeparator_iff.not.mpr hne
    simp [hsubmenu, hseparator]

/-- A submenu that stays has its separators tidied, and is dropped if it holds nothing else. -/
theorem prunedSubmenu?_of_stays (name : Node) {entries : List Node}
    (hentries : ∀ entry ∈ entries, entry.Reduced)
    (hsole : ∀ entry, sole? entries = some entry →
      entry.isSubmenu = true ∧ ¬entry.isWrapper = true) :
    prunedSubmenu? name entries =
      if meaningful entries = [] then none else some (submenu name (tidySeparators entries)) := by
  have hall : (tidySeparators entries).all isSeparator = true ↔ meaningful entries = [] := by
    rw [all_isSeparator_iff, meaningful_tidySeparators]
  rw [prunedSubmenu?, collapse_submenu, map_collapseEntry_of_reduced hentries,
    unwrap_eq_submenu name hsole]
  simp only [isSubmenu_submenu, if_true]
  change (if (tidySeparators entries).all isSeparator = true then none
    else some (submenu name (tidySeparators entries))) = _
  simp only [hall]

/-- What becomes of a submenu of reduced entries: it is dropped, its only entry replaces it, or it
stays with its separators tidied. -/
theorem prunedSubmenu?_cases (name : Node) {entries : List Node}
    (hentries : ∀ entry ∈ entries, entry.Reduced) :
    (meaningful entries = [] ∧ prunedSubmenu? name entries = none) ∨
    (∃ entry, sole? entries = some entry ∧ prunedSubmenu? name entries = some entry) ∨
    (meaningful entries ≠ [] ∧
      (∀ entry, sole? entries = some entry →
        entry.isSubmenu = true ∧ ¬entry.isWrapper = true) ∧
      prunedSubmenu? name entries = some (submenu name (tidySeparators entries))) := by
  obtain ⟨entry, hentry, hgives⟩ | hstays := gives_way_or_stays entries
  · exact Or.inr (Or.inl ⟨entry, hentry, prunedSubmenu?_of_gives_way name hentries hentry hgives⟩)
  · have hpruned := prunedSubmenu?_of_stays name hentries hstays
    by_cases hcontent : meaningful entries = []
    · exact Or.inl ⟨hcontent, by rw [hpruned, if_pos hcontent]⟩
    · exact Or.inr (Or.inr ⟨hcontent, hstays, by rw [hpruned, if_neg hcontent]⟩)

/-- A group is dropped when only separators are left in it. -/
theorem prunedGroup?_eq (items : List Node) :
    prunedGroup? items =
      if meaningful items = [] then none else some (.list (tidySeparators items)) := by
  by_cases hcontent : meaningful items = []
  · rw [if_pos hcontent, prunedGroup?, tidySeparators_eq_nil_iff.mpr hcontent]
  · have hkept := tidySeparators_eq_nil_iff.not.mpr hcontent
    rw [if_neg hcontent, prunedGroup?]
    cases h : tidySeparators items with
    | nil => exact absurd h hkept
    | cons entry rest => rfl

/-! ### Pruning reaches the normal form -/

/-- Tidying the separators leaves reduced entries. -/
theorem reduced_of_mem_tidySeparators {entries : List Node}
    (hentries : ∀ entry ∈ entries, entry.Reduced) :
    ∀ entry ∈ tidySeparators entries, entry.Reduced :=
  fun entry h => hentries entry ((tidySeparators_sublist entries).subset h)

/-- Absorbing a sole submenu leaves reduced entries. -/
private theorem reduced_of_mem_absorb {entries : List Node}
    (hentries : ∀ entry ∈ entries, entry.Reduced) : ∀ entry ∈ absorb entries, entry.Reduced := by
  refine absorb_invariant (motive := fun entries => ∀ entry ∈ entries, entry.Reduced) ?_ hentries
  intro entries entry hentries hsole _ inner hinner
  exact (hentries entry (mem_of_sole? hsole).1).of_mem_entries hinner

/-- If pruning reduces each item, what is kept of them is reduced. -/
private theorem reduced_of_mem_filterMap {items : List Node}
    (ih : ∀ item ∈ items, ∀ pruned, item.prune = some pruned → pruned.Reduced) :
    ∀ entry ∈ items.filterMap prune, entry.Reduced := by
  intro entry hentry
  obtain ⟨item, hitem, hpruned⟩ := List.mem_filterMap.mp hentry
  exact ih item hitem entry hpruned

/-- Everything that can become of a node that is kept. The entries that each case speaks of are
those that are left after pruning them one by one. -/
inductive Prunes : Node → Node → Prop
  /-- An atom that is kept. -/
  | atom {text : String} (hkept : isKeptText text = true) : Prunes (.atom text) (.atom text)
  /-- A menu takes over what it can. -/
  | menu {entries : List Node}
      (hentries : ∀ entry ∈ entries, ∀ pruned, entry.prune = some pruned → Prunes entry pruned) :
      Prunes (.menu entries) (.menu (tidySeparators (absorb (entries.filterMap prune))))
  /-- A submenu is replaced by its only entry. -/
  | sole {name entry : Node} {entries : List Node}
      (hentries : ∀ entry ∈ entries, ∀ pruned, entry.prune = some pruned → Prunes entry pruned)
      (hsole : sole? (entries.filterMap prune) = some entry) : Prunes (.submenu name entries) entry
  /-- A submenu stays. -/
  | submenu {name : Node} {entries : List Node}
      (hentries : ∀ entry ∈ entries, ∀ pruned, entry.prune = some pruned → Prunes entry pruned)
      (hcontent : meaningful (entries.filterMap prune) ≠ [])
      (hsole : ∀ entry, sole? (entries.filterMap prune) = some entry →
        entry.isSubmenu = true ∧ ¬entry.isWrapper = true) :
      Prunes (.submenu name entries) (.submenu name (tidySeparators (entries.filterMap prune)))
  /-- A group stays. -/
  | group {items : List Node} (hgroup : IsGroup items)
      (hitems : ∀ item ∈ items, ∀ pruned, item.prune = some pruned → Prunes item pruned)
      (hcontent : meaningful (items.filterMap prune) ≠ []) :
      Prunes (.list items) (.list (tidySeparators (items.filterMap prune)))

/-- Whatever becomes of a node is reduced. -/
theorem Prunes.reduced {node pruned : Node} (h : Prunes node pruned) : pruned.Reduced := by
  induction h with
  | atom hkept => exact .atom hkept
  | menu _ ih =>
    have hentries := reduced_of_mem_absorb (reduced_of_mem_filterMap ih)
    refine .menu (reduced_of_mem_tidySeparators hentries) (tidy_tidySeparators _)
      fun entry hsole => ?_
    rw [sole?_tidySeparators] at hsole
    exact not_isSubmenu_of_sole?_absorb hsole
  | sole _ hsole ih => exact reduced_of_mem_filterMap ih _ (mem_of_sole? hsole).1
  | submenu _ hcontent hsole ih =>
    exact .submenu (reduced_of_mem_tidySeparators (reduced_of_mem_filterMap ih))
      (tidy_tidySeparators _) (by rwa [meaningful_tidySeparators]) (by simpa using hsole)
  | group _ _ hcontent ih =>
    have hitems := reduced_of_mem_tidySeparators (reduced_of_mem_filterMap ih)
    exact .group (isGroup_of_reduced hitems) hitems (tidy_tidySeparators _)
      (tidySeparators_eq_nil_iff.not.mpr hcontent)

/-- A node that is kept becomes one of these. -/
theorem prunes_of_prune {node pruned : Node} (h : node.prune = some pruned) :
    Prunes node pruned := by
  induction node using byShape generalizing pruned with
  | atom text =>
    rw [prune_atom] at h
    split at h
    · next hkept =>
      cases h
      exact .atom hkept
    · cases h
  | menu entries ih =>
    have hentries := reduced_of_mem_filterMap fun entry hentry _ h => (ih entry hentry h).reduced
    rw [prune_menu, prunedMenu_eq hentries] at h
    cases h
    exact .menu fun entry hentry _ => ih entry hentry
  | nameless =>
    rw [prune_nameless] at h
    cases h
  | submenu name entries _ ih =>
    have hentries := reduced_of_mem_filterMap fun entry hentry _ h => (ih entry hentry h).reduced
    rw [prune_submenu] at h
    obtain ⟨_, hpruned⟩ | ⟨entry, hsole, hpruned⟩ | ⟨hcontent, hstays, hpruned⟩ :=
      prunedSubmenu?_cases name hentries
    · rw [hpruned] at h
      cases h
    · rw [hpruned] at h
      cases h
      exact .sole (fun entry hentry _ => ih entry hentry) hsole
    · rw [hpruned] at h
      cases h
      exact .submenu (fun entry hentry _ => ih entry hentry) hcontent hstays
  | group items hgroup ih =>
    rw [prune_group hgroup, prunedGroup?_eq] at h
    split at h
    · cases h
    · next hcontent =>
      cases h
      exact .group hgroup (fun item hitem _ => ih item hitem) hcontent

/-- Whatever pruning gives is reduced. -/
theorem reduced_of_prune {node pruned : Node} (h : node.prune = some pruned) : pruned.Reduced :=
  (prunes_of_prune h).reduced

/-- The entries that are left of some items are reduced. -/
theorem reduced_of_mem_filterMap_prune (items : List Node) :
    ∀ entry ∈ items.filterMap prune, entry.Reduced :=
  reduced_of_mem_filterMap fun _ _ _ => reduced_of_prune

/-! ### Pruning leaves the normal form as it is -/

/-- Entries that pruning leaves alone are all kept as they are. -/
private theorem filterMap_prune_eq_self {entries : List Node}
    (hentries : ∀ entry ∈ entries, entry.prune = some entry) :
    entries.filterMap prune = entries := by
  induction entries with
  | nil => rfl
  | cons entry entries ih =>
    rw [List.filterMap_cons_some (hentries entry (by simp)),
      ih fun entry h => hentries entry (by simp [h])]

/-- A reduced tree is pruned to itself. -/
theorem Reduced.prune_eq_self {node : Node} (h : node.Reduced) : node.prune = some node := by
  induction h with
  | atom hkept => rw [prune_atom, if_pos hkept]
  | menu hentries htidy hsole ih =>
    rw [prune_menu, filterMap_prune_eq_self ih, prunedMenu_eq hentries, absorb_eq_self hsole,
      htidy.tidySeparators_eq_self]
  | submenu hentries htidy hcontent hsole ih =>
    rw [prune_submenu, filterMap_prune_eq_self ih, prunedSubmenu?_of_stays _ hentries hsole,
      if_neg hcontent, htidy.tidySeparators_eq_self]
  | group hgroup hitems htidy hcontent ih =>
    have hmeaningful := tidySeparators_eq_nil_iff.not.mp (htidy.tidySeparators_eq_self ▸ hcontent)
    rw [prune_group hgroup, filterMap_prune_eq_self ih, prunedGroup?_eq, if_neg hmeaningful,
      htidy.tidySeparators_eq_self]

end Node

/-- The tree that stands for a document without any kept part is reduced too. -/
theorem reduced_reduce (root : Option Node) : (reduce root).Reduced := by
  unfold reduce
  cases h : root.bind Node.prune with
  | none => exact .menu (by simp) ⟨by simp, by simp, List.IsChain.nil⟩ (by simp [sole?])
  | some pruned =>
    obtain ⟨node, rfl, hpruned⟩ := Option.bind_eq_some_iff.mp h
    exact Node.reduced_of_prune hpruned

end Menus
