import Menus.Node.Collapse
import Menus.Proofs.Separators

/-!
# How submenus with a single entry collapse

A menu takes over the entries of its only submenu as long as it has only one. This file unrolls
that into a first step and a rest, gives the induction along the chain of submenus that are taken
over, and says when a submenu stays and when its only entry replaces it.
-/

namespace Menus

open Node

/-! ### The only entry -/

/-- The sole entry is the only one that is no separator. -/
theorem sole?_eq_some_iff {entries : List Node} {entry : Node} :
    sole? entries = some entry ↔ meaningful entries = [entry] := by
  rw [sole?, meaningful]
  split
  · next first hfirst => simp [hfirst]
  · next hother =>
    constructor
    · intro h
      cases h
    · intro h
      exact absurd h (hother entry)

/-- Only the entries that are no separators count. -/
theorem sole?_congr {first second : List Node} (h : meaningful first = meaningful second) :
    sole? first = sole? second := by
  ext entry
  rw [sole?_eq_some_iff, sole?_eq_some_iff, h]

/-- The only entry is an entry, and no separator. -/
theorem mem_of_sole? {entries : List Node} {entry : Node} (h : sole? entries = some entry) :
    entry ∈ entries ∧ entry ≠ separator := by
  rw [← mem_meaningful, sole?_eq_some_iff.mp h]
  exact List.mem_singleton.mpr rfl

/-- Tidying the separators keeps the sole entry. -/
@[simp] theorem sole?_tidySeparators (entries : List Node) :
    sole? (tidySeparators entries) = sole? entries :=
  sole?_congr (meaningful_tidySeparators entries)

namespace Node

/-- A submenu offers no choice exactly when it has an only entry. -/
theorem isWrapper_iff {node : Node} :
    node.isWrapper = true ↔ node.isSubmenu = true ∧ ∃ entry, sole? node.entries = some entry := by
  simp [isWrapper, Option.isSome_iff_exists]

/-! ### What a menu takes over -/

/-- What the sole entry yields is nothing where there is none. -/
private theorem yieldedBySole?_eq (entries : List Node) :
    yieldedBySole? entries = (sole? entries).bind yielded? := by
  induction entries with
  | nil => rfl
  | cons entry entries ih =>
    by_cases h : entry = separator
    · subst h
      rw [yieldedBySole?, if_pos isSeparator_separator, ih,
        sole?_congr (meaningful_cons_separator entries)]
    · have hentry : ¬entry.isSeparator = true := isSeparator_iff.not.mpr h
      rw [yieldedBySole?, if_neg hentry]
      by_cases hrest : meaningful entries = []
      · have hsole : sole? (entry :: entries) = some entry := by
          rw [sole?_eq_some_iff, meaningful_cons h, hrest]
        rw [if_pos (all_isSeparator_iff.mpr hrest), hsole, Option.bind_some]
      · have hsole : sole? (entry :: entries) = none := by
          rw [Option.eq_none_iff_forall_ne_some]
          intro other hother
          rw [sole?_eq_some_iff, meaningful_cons h] at hother
          exact hrest (List.cons.inj hother).2
        rw [if_neg (all_isSeparator_iff.not.mpr hrest), hsole, Option.bind_none]

/-- A submenu yields its absorbed entries. -/
private theorem yielded?_of_isSubmenu {node : Node} (hsubmenu : node.isSubmenu = true) :
    node.yielded? = some (absorb node.entries) := by
  obtain rfl | ⟨name, hnode⟩ := eq_of_isSubmenu hsubmenu
  · rw [entries_nameless]
    rfl
  · rw [hnode, entries_submenu]
    simp [submenu, yielded?, absorb]

/-- Nothing but a submenu yields entries. -/
private theorem yielded?_of_not_isSubmenu {node : Node} (hsubmenu : ¬node.isSubmenu = true) :
    node.yielded? = none := by
  cases node using byShape with
  | atom text => rfl
  | menu entries => simp [menu, yielded?, menuHead, submenuHead]
  | nameless => exact absurd (by simp [isSubmenu]) hsubmenu
  | submenu name entries => exact absurd (isSubmenu_submenu name entries) hsubmenu
  | group items hgroup =>
    cases items with
    | nil => rfl
    | cons head rest =>
      rw [yielded?.eq_def]
      exact if_neg hgroup.ne_submenuHead

/-- A menu goes on with the entries of its only entry while that is a submenu. -/
theorem absorb_of_isSubmenu {entries : List Node} {entry : Node}
    (hsole : sole? entries = some entry) (hsubmenu : entry.isSubmenu = true) :
    absorb entries = absorb entry.entries := by
  rw [absorb, yieldedBySole?_eq, hsole, Option.bind_some, yielded?_of_isSubmenu hsubmenu,
    Option.getD_some]

/-- A menu keeps its entries when its only entry is no submenu, or when it has no only entry. -/
theorem absorb_eq_self {entries : List Node}
    (hsole : ∀ entry, sole? entries = some entry → ¬entry.isSubmenu = true) :
    absorb entries = entries := by
  rw [absorb, yieldedBySole?_eq]
  cases h : sole? entries with
  | none => rfl
  | some entry => rw [Option.bind_some, yielded?_of_not_isSubmenu (hsole entry h), Option.getD_none]

/-- Induction along the chain of submenus that a menu with the given entries takes over. A link of
the chain needs the statement for the entries of one entry only. -/
@[elab_as_elim] theorem absorb_induction {motive : List Node → Prop}
    (stop : ∀ entries, (∀ entry, sole? entries = some entry → ¬entry.isSubmenu = true) →
      motive entries)
    (step : ∀ entries entry, sole? entries = some entry → entry.isSubmenu = true →
      motive entry.entries → motive entries)
    (entries : List Node) : motive entries := by
  have hlink : ∀ entries, (∀ entry ∈ entries, motive entry.entries) → motive entries := by
    intro entries ih
    cases h : sole? entries with
    | none => exact stop entries (by simp [h])
    | some entry =>
      by_cases hsubmenu : entry.isSubmenu = true
      · exact step entries entry h hsubmenu (ih entry (mem_of_sole? h).1)
      · exact stop entries (by simpa [h] using hsubmenu)
  have hnode : ∀ node : Node, motive node.entries := by
    intro node
    induction node using byShape with
    | atom text => exact hlink [] (by simp)
    | menu entries ih => simpa using hlink entries ih
    | nameless => simpa using hlink [] (by simp)
    | submenu name entries _ ih => simpa using hlink entries ih
    | group items hgroup ih => simpa [entries_group hgroup] using hlink items ih
  exact hlink entries fun entry _ => hnode entry

/-- When a menu has taken over what it can, its only entry is no submenu. -/
theorem not_isSubmenu_of_sole?_absorb {entries : List Node} {entry : Node}
    (hsole : sole? (absorb entries) = some entry) : ¬entry.isSubmenu = true := by
  induction entries using absorb_induction with
  | stop entries hstop =>
    rw [absorb_eq_self hstop] at hsole
    exact hstop entry hsole
  | step entries inner hinner hsubmenu ih =>
    rw [absorb_of_isSubmenu hinner hsubmenu] at hsole
    exact ih hsole

/-- What holds of the entries of a menu, and goes over to the entries of a submenu that is the only
one, holds of the entries that the menu ends up with. -/
theorem absorb_invariant {motive : List Node → Prop}
    (step : ∀ entries entry, motive entries → sole? entries = some entry →
      entry.isSubmenu = true → motive entry.entries)
    {entries : List Node} (h : motive entries) : motive (absorb entries) := by
  induction entries using absorb_induction with
  | stop entries hstop => rwa [absorb_eq_self hstop]
  | step entries entry hsole hsubmenu ih =>
    rw [absorb_of_isSubmenu hsole hsubmenu]
    exact ih (step entries entry h hsole hsubmenu)

/-- The entries of a menu do not get deeper. -/
theorem depth_le_of_mem_absorb {entries : List Node} {n : Nat}
    (hentries : ∀ entry ∈ entries, entry.depth ≤ n) :
    ∀ entry ∈ absorb entries, entry.depth ≤ n := by
  refine absorb_invariant (motive := fun taken => ∀ entry ∈ taken, entry.depth ≤ n) ?_ hentries
  intro taken entry htaken hsole _ inner hinner
  have hentry := htaken entry (mem_of_sole? hsole).1
  have hdeeper := depth_lt_of_mem_entries hinner
  omega

/-! ### Parts of entries

Separators have none of the parts that are looked at, and a submenu has those of its entries.
-/

section Parts

variable {α : Type*} {parts : Node → List α}

/-- What separators have no part in is found in the other entries. -/
theorem flatMap_meaningful (hseparator : parts separator = []) (entries : List Node) :
    (meaningful entries).flatMap parts = entries.flatMap parts := by
  induction entries with
  | nil => rfl
  | cons entry entries ih =>
    by_cases h : entry = separator
    · subst h
      rw [meaningful_cons_separator, ih, List.flatMap_cons, hseparator, List.nil_append]
    · rw [meaningful_cons h, List.flatMap_cons, List.flatMap_cons, ih]

/-- What separators have no part in is found in the sole entry. -/
theorem flatMap_of_sole? (hseparator : parts separator = []) {entries : List Node} {entry : Node}
    (hsole : sole? entries = some entry) : entries.flatMap parts = parts entry := by
  rw [← flatMap_meaningful hseparator, sole?_eq_some_iff.mp hsole, List.flatMap_singleton]

/-- Absorbing a sole submenu keeps what a submenu takes from its entries. -/
theorem flatMap_absorb (hseparator : parts separator = [])
    (hsubmenus : ∀ node : Node, node.isSubmenu = true → parts node = node.entries.flatMap parts)
    (entries : List Node) : (absorb entries).flatMap parts = entries.flatMap parts := by
  refine absorb_invariant
    (motive := fun taken => taken.flatMap parts = entries.flatMap parts) ?_ rfl
  intro taken entry htaken hsole hsubmenu
  rw [← hsubmenus entry hsubmenu, ← flatMap_of_sole? hseparator hsole, htaken]

end Parts

/-! ### What replaces a submenu -/

/-- A submenu stays when it has no only entry, or when that entry is a submenu with a choice. -/
theorem unwrap_eq_submenu (name : Node) {entries : List Node}
    (hsole : ∀ entry, sole? entries = some entry →
      entry.isSubmenu = true ∧ ¬entry.isWrapper = true) :
    unwrap name entries = submenu name entries := by
  unfold unwrap
  cases h : sole? entries with
  | none => rfl
  | some entry =>
    obtain ⟨hsubmenu, hwrapper⟩ := hsole entry h
    simp [hsubmenu, hwrapper]

/-- A submenu gives way to its only entry when that is no submenu, or has an only entry too. -/
theorem unwrap_eq_sole (name : Node) {entries : List Node} {entry : Node}
    (hsole : sole? entries = some entry)
    (hgives : entry.isSubmenu = true → entry.isWrapper = true) :
    unwrap name entries = entry := by
  unfold unwrap
  by_cases hsubmenu : entry.isSubmenu = true
  · simp [hsole, hgives hsubmenu]
  · simp [hsole, hsubmenu]

/-- Either the only entry of a submenu replaces it, or the submenu stays. -/
theorem gives_way_or_stays (entries : List Node) :
    (∃ entry, sole? entries = some entry ∧ (entry.isSubmenu = true → entry.isWrapper = true)) ∨
      ∀ entry, sole? entries = some entry → entry.isSubmenu = true ∧ ¬entry.isWrapper = true := by
  cases hsole : sole? entries with
  | none => exact Or.inr nofun
  | some entry =>
    by_cases hgives : entry.isSubmenu = true → entry.isWrapper = true
    · exact Or.inl ⟨entry, rfl, hgives⟩
    · right
      rintro _ ⟨rfl⟩
      exact Classical.not_imp.mp hgives

/-! ### Collapsing each kind of node -/

/-- A submenu among some entries is collapsed, and any other entry left as it is. -/
def collapseEntry (entry : Node) : Node := if entry.isSubmenu then entry.collapse else entry

/-- The submenus of a list are collapsed one by one. -/
theorem collapseSubmenus_eq_map (entries : List Node) :
    collapseSubmenus entries = entries.map collapseEntry := by
  induction entries with
  | nil => rfl
  | cons entry entries ih => rw [collapseSubmenus, ih, List.map_cons, collapseEntry]

/-- Entries that collapsing leaves as they are stay the same together. -/
theorem map_collapseEntry_eq_self {entries : List Node}
    (hentries : ∀ entry ∈ entries, entry.collapse = entry) :
    entries.map collapseEntry = entries := by
  rw [List.map_congr_left (g := id), List.map_id]
  intro entry hentry
  rw [collapseEntry, hentries entry hentry, ite_self, id]

/-- The entries of a menu are collapsed before a sole submenu is absorbed. -/
theorem collapse_menu (entries : List Node) :
    (menu entries).collapse = menu (absorb (entries.map collapseEntry)) := by
  simp [menu, collapse, collapseSubmenus_eq_map]

/-- The entries of a submenu are collapsed before it is unwrapped. -/
theorem collapse_submenu (name : Node) (entries : List Node) :
    (submenu name entries).collapse = unwrap name (entries.map collapseEntry) := by
  simp [submenu, collapse, menuHead, submenuHead, collapseSubmenus_eq_map]

/-- A submenu collapses to the entry that it gives way to, or it stays with its entries
collapsed. -/
theorem collapse_submenu_cases (name : Node) (entries : List Node) :
    (∃ entry, sole? (entries.map collapseEntry) = some entry ∧
      (entry.isSubmenu = true → entry.isWrapper = true) ∧
      (submenu name entries).collapse = entry) ∨
    (submenu name entries).collapse = submenu name (entries.map collapseEntry) := by
  rw [collapse_submenu]
  obtain ⟨entry, hsole, hgives⟩ | hstays := gives_way_or_stays (entries.map collapseEntry)
  · exact Or.inl ⟨entry, hsole, hgives, unwrap_eq_sole name hsole hgives⟩
  · exact Or.inr (unwrap_eq_submenu name hstays)

/-- A group is left as it is. -/
theorem collapse_group {items : List Node} (hgroup : IsGroup items) :
    (Node.list items).collapse = .list items := by
  cases items with
  | nil => rfl
  | cons head rest =>
    rw [collapse.eq_def]
    simp only [if_neg hgroup.ne_menuHead, if_neg hgroup.ne_submenuHead]

end Node

end Menus
