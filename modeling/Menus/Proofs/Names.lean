import Menus.Proofs.EntryLists
import Menus.Proofs.Layout
import Menus.Proofs.ReducedTexts

/-!
# The names of submenus

Writing a tree follows its entries, and the only thing that stops it is a submenu without an atom
for its name: one named by a list, or one that is just `(submenu)`. A reduction drops the second
kind, and neither names a submenu nor renames one, so the lists among the names of a reduced tree
were names in the tree that was reduced.
-/

namespace Menus

namespace Node

/-! ### When a tree has no written form -/

/-- A submenu that has no written form, whatever its entries are, and the reason for that. -/
inductive Unwritable : Node → LayoutError → Prop
  /-- The name is a list. -/
  | listName {name entries : List Node} : Unwritable (.submenu (.list name) entries) .nameNotAtom
  /-- There is no name. -/
  | noName : Unwritable (.list [submenuHead]) .nameMissing

/-- What cannot be written fails at every level with the same error. -/
theorem layout_of_unwritable {node : Node} {error : LayoutError} (h : Unwritable node error)
    (level : Nat) : node.layout level = .error error := by
  cases h with
  | listName => exact layout_list_named level _ _
  | noName => exact layout_nameless level

/-- Two steps of a layout fail exactly if one of them does. -/
private theorem bind_eq_error {α β : Type} {result : Except LayoutError α}
    {next : α → Except LayoutError β} {error : LayoutError} :
    (result >>= next) = .error error ↔
      result = .error error ∨ ∃ first, result = .ok first ∧ next first = .error error := by
  cases result with
  | error other => simp [bind, Except.bind]
  | ok first => simp [bind, Except.bind]

/-- Items that cannot be laid out together have one that cannot be laid out. -/
private theorem exists_of_layoutAll_eq_error {lead : Node → List Char} {level : Nat}
    {items : List Node} {error : LayoutError} (h : layoutAll lead level items = .error error) :
    ∃ item ∈ items, item.layout level = .error error := by
  induction items with
  | nil => cases h
  | cons item items ih =>
    rw [layoutAll, bind_eq_error] at h
    rcases h with hfirst | ⟨first, -, h⟩
    · exact ⟨item, by simp, hfirst⟩
    · rcases bind_eq_error.mp h with hothers | ⟨others, -, hnever⟩
      · obtain ⟨other, hother, hlayout⟩ := ih hothers
        exact ⟨other, by simp [hother], hlayout⟩
      · cases hnever

/-- Putting the written forms of some items between other characters does not fail by itself. -/
private theorem exists_of_bind_layoutAll_eq_error {lead : Node → List Char} {level : Nat}
    {items : List Node} {finish : List Char → List Char} {error : LayoutError}
    (h : (layoutAll lead level items >>= fun inside => pure (finish inside)) = .error error) :
    ∃ item ∈ items, item.layout level = .error error := by
  rcases bind_eq_error.mp h with hitems | ⟨inside, -, hnever⟩
  · exact exists_of_layoutAll_eq_error hitems
  · cases hnever

/-- Items that are laid out together are each laid out. -/
private theorem layout_ok_of_mem {lead : Node → List Char} {level : Nat} {items : List Node}
    {chars : List Char} (h : layoutAll lead level items = .ok chars) :
    ∀ item ∈ items, ∃ chars, item.layout level = .ok chars := by
  induction items generalizing chars with
  | nil => simp
  | cons item items ih =>
    obtain ⟨first, others, hfirst, hothers, -⟩ := layoutAll_cons_eq_ok.mp h
    rw [List.forall_mem_cons]
    exact ⟨⟨first, hfirst⟩, ih hothers⟩

/-- A node that has no written form is a submenu without an atom for its name, or one of its entries
has no written form for the same reason. -/
theorem unwritable_or_exists_mem_entries {node : Node} {level : Nat} {error : LayoutError}
    (h : node.layout level = .error error) :
    Unwritable node error ∨ ∃ entry ∈ node.entries, ∃ level, entry.layout level = .error error := by
  cases node using byShape with
  | atom text => simp at h
  | menu entries _ =>
    rw [menu, layout.eq_def] at h
    simp only [if_true, layoutEntries_eq] at h
    obtain ⟨entry, hentry, hlayout⟩ := exists_of_bind_layoutAll_eq_error h
    exact Or.inr ⟨entry, by rwa [entries_menu], _, hlayout⟩
  | nameless =>
    rw [layout_nameless] at h
    cases h
    exact Or.inl .noName
  | submenu name entries _ _ =>
    cases name with
    | list items =>
      rw [layout_list_named] at h
      cases h
      exact Or.inl .listName
    | atom name =>
      rw [submenu, layout, if_neg (by simp [menuHead, submenuHead]), if_pos rfl,
        layoutEntries_eq] at h
      obtain ⟨entry, hentry, hlayout⟩ := exists_of_bind_layoutAll_eq_error h
      exact Or.inr ⟨entry, by rwa [entries_submenu], _, hlayout⟩
  | group items hgroup _ =>
    cases items with
    | nil =>
      rw [layout_group_nil] at h
      cases h
    | cons item items =>
      rw [layout.eq_def] at h
      simp only [if_neg hgroup.ne_menuHead, if_neg hgroup.ne_submenuHead, layoutOthers_eq] at h
      rw [entries_group hgroup]
      rcases bind_eq_error.mp h with hfirst | ⟨first, -, h⟩
      · exact Or.inr ⟨item, by simp, level, hfirst⟩
      · obtain ⟨other, hother, hlayout⟩ := exists_of_bind_layoutAll_eq_error h
        exact Or.inr ⟨other, by simp [hother], level, hlayout⟩

/-- The entries of a node that has a written form have one too. -/
theorem layout_ok_of_mem_entries {node entry : Node} {level : Nat} {chars : List Char}
    (h : node.layout level = .ok chars) (hentry : entry ∈ node.entries) :
    ∃ level chars, entry.layout level = .ok chars := by
  cases node using byShape with
  | atom text => simp at hentry
  | menu entries _ =>
    obtain ⟨inside, hinside, -⟩ := layout_menu_eq_ok.mp h
    rw [entries_menu] at hentry
    exact ⟨_, layout_ok_of_mem hinside entry hentry⟩
  | nameless => simp at hentry
  | submenu name entries _ _ =>
    obtain ⟨-, inside, -, hinside, -⟩ := layout_submenu_eq_ok.mp h
    rw [entries_submenu] at hentry
    exact ⟨_, layout_ok_of_mem hinside entry hentry⟩
  | group items hgroup _ =>
    rw [entries_group hgroup] at hentry
    cases items with
    | nil => cases hentry
    | cons item items =>
      obtain ⟨first, others, hfirst, hothers, -⟩ := (layout_group_cons_eq_ok hgroup).mp h
      rcases List.mem_cons.mp hentry with rfl | hentry
      · exact ⟨level, first, hfirst⟩
      · exact ⟨level, layout_ok_of_mem hothers entry hentry⟩

/-- If a tree has no written form, a submenu that is reached through entries is the reason. The
induction is on the depth, which goes down from a node to its entries. -/
theorem exists_unwritable_of_layout {node : Node} {level : Nat} {error : LayoutError}
    (h : node.layout level = .error error) :
    ∃ inner, node.Reaches inner ∧ Unwritable inner error := by
  induction hdepth : node.depth using Nat.strongRecOn generalizing node level with
  | ind depth ih =>
    rcases unwritable_or_exists_mem_entries h with hnode | ⟨entry, hentry, level, hlayout⟩
    · exact ⟨node, .refl, hnode⟩
    · have hless := depth_lt_of_mem_entries hentry
      obtain ⟨inner, hreach, hinner⟩ := ih entry.depth (by omega) hlayout rfl
      exact ⟨inner, .head hentry hreach, hinner⟩

/-- In a tree that has a written form, all that is reached through entries has one. -/
theorem layout_ok_of_reaches {node inner : Node} {level : Nat} {chars : List Char}
    (h : node.layout level = .ok chars) (hreach : node.Reaches inner) :
    ∃ level chars, inner.layout level = .ok chars := by
  induction hreach with
  | refl => exact ⟨level, chars, h⟩
  | tail _ hentry ih =>
    obtain ⟨level, chars, hlayout⟩ := ih
    exact layout_ok_of_mem_entries hlayout hentry

/-- A tree has no written form exactly if a submenu without an atom for its name is reached. -/
theorem exists_layout_eq_error_iff {node : Node} {level : Nat} :
    (∃ error, node.layout level = .error error) ↔
      ∃ inner error, node.Reaches inner ∧ Unwritable inner error := by
  constructor
  · rintro ⟨error, herror⟩
    obtain ⟨inner, hreach, hinner⟩ := exists_unwritable_of_layout herror
    exact ⟨inner, error, hreach, hinner⟩
  · rintro ⟨inner, error, hreach, hinner⟩
    cases hlayout : node.layout level with
    | error other => exact ⟨other, rfl⟩
    | ok chars =>
      obtain ⟨level, chars, hok⟩ := layout_ok_of_reaches hlayout hreach
      rw [layout_of_unwritable hinner] at hok
      cases hok

/-! ### The names of the submenus in a tree -/

/-- A submenu with the given name is reached through entries. -/
def HasName (node name : Node) : Prop := ∃ entries, node.Reaches (.submenu name entries)

/-- A submenu that is named by a list is reached through entries. -/
def HasListName (node : Node) : Prop := ∃ items, node.HasName (.list items)

/-- A name inside of an entry is inside of the node. -/
theorem HasName.of_mem_entries {node entry name : Node} (h : entry.HasName name)
    (hentry : entry ∈ node.entries) : node.HasName name := by
  obtain ⟨entries, hreach⟩ := h
  exact ⟨entries, .head hentry hreach⟩

/-- A name stands in the node itself, or in one of its entries. -/
theorem HasName.cases {node name : Node} (h : node.HasName name) :
    (∃ entries, node = .submenu name entries) ∨ ∃ entry ∈ node.entries, entry.HasName name := by
  obtain ⟨entries, hreach⟩ := h
  obtain hnode | ⟨entry, hentry, hreach⟩ := hreach.cases_head
  · exact Or.inl ⟨entries, hnode⟩
  · exact Or.inr ⟨entry, hentry, entries, hreach⟩

/-- In a node that is no submenu, a name stands in one of the entries. -/
theorem HasName.exists_mem_entries {node name : Node} (h : node.HasName name)
    (hsubmenu : node.isSubmenu = false) : ∃ entry ∈ node.entries, entry.HasName name := by
  obtain ⟨entries, rfl⟩ | hentry := h.cases
  · simp at hsubmenu
  · exact hentry

/-- Absorbing a sole submenu makes up no name. -/
private theorem exists_hasName_of_mem_absorb {entries : List Node} {name : Node} :
    ∀ entry ∈ absorb entries, entry.HasName name → ∃ entry ∈ entries, entry.HasName name := by
  refine absorb_invariant (motive := fun taken => ∀ entry ∈ taken, entry.HasName name →
    ∃ entry ∈ entries, entry.HasName name) ?_ fun entry hentry hname => ⟨entry, hentry, hname⟩
  intro taken entry htaken hsole _ inner hinner hname
  exact htaken entry (mem_of_sole? hsole).1 (hname.of_mem_entries hinner)

/-- If pruning makes up no name in any item, it makes up none in the list. -/
private theorem exists_hasName_of_mem_filterMap_prune {items : List Node} {name : Node}
    (ih : ∀ item ∈ items, ∀ pruned, item.prune = some pruned → pruned.HasName name →
      item.HasName name) :
    ∀ entry ∈ items.filterMap prune, entry.HasName name → ∃ item ∈ items, item.HasName name := by
  intro entry hentry hname
  obtain ⟨item, hitem, hpruned⟩ := List.mem_filterMap.mp hentry
  exact ⟨item, hitem, ih item hitem entry hpruned hname⟩

/-- Pruning gives no submenu a name that no submenu had before. -/
theorem Prunes.hasName {node pruned name : Node} (h : Prunes node pruned)
    (hname : pruned.HasName name) : node.HasName name := by
  induction h with
  | atom => exact hname
  | @menu entries hentries ih =>
    obtain ⟨entry, hentry, hname⟩ := hname.exists_mem_entries (isSubmenu_menu _)
    rw [entries_menu] at hentry
    obtain ⟨kept, hkept, hname⟩ :=
      exists_hasName_of_mem_absorb entry ((tidySeparators_sublist _).subset hentry) hname
    obtain ⟨item, hitem, hname⟩ := exists_hasName_of_mem_filterMap_prune ih kept hkept hname
    exact hname.of_mem_entries (by rwa [entries_menu])
  | @sole outer entry entries hentries hsole ih =>
    obtain ⟨item, hitem, hname⟩ :=
      exists_hasName_of_mem_filterMap_prune ih entry (mem_of_sole? hsole).1 hname
    exact hname.of_mem_entries (by rwa [entries_submenu])
  | @submenu outer entries hentries hcontent hsole ih =>
    obtain ⟨kept, hsame⟩ | ⟨entry, hentry, hname⟩ := hname.cases
    · obtain ⟨rfl, -⟩ : outer = name ∧ _ := by simpa [Node.submenu] using hsame
      exact ⟨entries, .refl⟩
    · rw [entries_submenu] at hentry
      obtain ⟨item, hitem, hname⟩ := exists_hasName_of_mem_filterMap_prune ih entry
        ((tidySeparators_sublist _).subset hentry) hname
      exact hname.of_mem_entries (by rwa [entries_submenu])
  | @group items hgroup hitems hcontent ih =>
    have hkept := isGroup_of_reduced
      (reduced_of_mem_tidySeparators (reduced_of_mem_filterMap_prune items))
    obtain ⟨entry, hentry, hname⟩ := hname.exists_mem_entries (isSubmenu_group hkept)
    rw [entries_group hkept] at hentry
    obtain ⟨item, hitem, hname⟩ := exists_hasName_of_mem_filterMap_prune ih entry
      ((tidySeparators_sublist _).subset hentry) hname
    exact hname.of_mem_entries (by rwa [entries_group hgroup])

/-! ### Writing a reduced tree -/

/-- A reduced node fails to be laid out only for a name that is a list. -/
private theorem Reduced.layout_eq_error {node : Node} (h : node.Reduced) {level : Nat}
    {error : LayoutError} (herror : node.layout level = .error error) :
    node.HasListName ∧ error = .nameNotAtom := by
  obtain ⟨inner, hreach, hinner⟩ := exists_unwritable_of_layout herror
  cases hinner with
  | @listName name entries => exact ⟨⟨name, entries, hreach⟩, rfl⟩
  | noName =>
    obtain ⟨name, entries, hname, -⟩ := (h.of_reaches hreach).eq_submenu (by simp [isSubmenu])
    cases hname

/-- A reduced tree has no written form exactly when a list is left among the names of its submenus,
and that is the reason. -/
theorem Reduced.layout_eq_error_iff {node : Node} (h : node.Reduced) (level : Nat)
    {error : LayoutError} :
    node.layout level = .error error ↔ node.HasListName ∧ error = .nameNotAtom := by
  constructor
  · exact h.layout_eq_error
  · rintro ⟨⟨name, entries, hreach⟩, rfl⟩
    obtain ⟨other, hother⟩ :=
      exists_layout_eq_error_iff.mpr ⟨_, _, hreach, Unwritable.listName⟩
    obtain ⟨-, rfl⟩ := h.layout_eq_error hother
    exact hother

/-- A reduced node fails to be printed exactly for a name that is a list. -/
theorem Reduced.print_eq_error_iff {node : Node} (h : node.Reduced) {error : LayoutError} :
    node.print = .error error ↔ node.HasListName ∧ error = .nameNotAtom := by
  rw [← h.layout_eq_error_iff 0, print]
  cases node.layout 0 with
  | error other => simp [Except.map]
  | ok chars => simp [Except.map]

/-- A reduced tree is written exactly if no list is left among the names of its submenus. -/
theorem Reduced.exists_print_eq_ok_iff {node : Node} (h : node.Reduced) :
    (∃ written, node.print = .ok written) ↔ ¬node.HasListName := by
  cases hprint : node.print with
  | error error => simp [(h.print_eq_error_iff.mp hprint).1]
  | ok written =>
    have hname : ¬node.HasListName := by
      intro hname
      rw [h.print_eq_error_iff.mpr ⟨hname, rfl⟩] at hprint
      cases hprint
    simp [hname]

end Node

/-- A list that names a submenu of the reduced tree names one of the tree that was reduced. -/
theorem exists_hasListName_of_reduce {root : Option Node} (h : (reduce root).HasListName) :
    ∃ node, root = some node ∧ node.HasListName := by
  obtain ⟨items, hname⟩ := h
  obtain ⟨node, hroot, hprune⟩ | hempty := reduce_cases root
  · exact ⟨node, hroot, items, (Node.prunes_of_prune hprune).hasName hname⟩
  · rw [hempty] at hname
    obtain ⟨entry, hentry, -⟩ := hname.exists_mem_entries (Node.isSubmenu_menu _)
    simp at hentry

end Menus
