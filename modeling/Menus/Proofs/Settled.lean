import Menus.Proofs.Collapsing

/-!
# What collapsing settles

Collapsing on its own ends in trees in which no submenu can collapse any further, whatever the tree
was before. It looks into the submenus of a menu or of a submenu only, so every submenu that is met
on such a way is settled, and all else is as it was. Unless a menu comes up from below and stands in
place of the tree, collapsing again changes nothing.
-/

namespace Menus

namespace Node

/-! ### Settled entries -/

/-- The entries that collapsing ends in. A submenu with an only entry has a submenu there that has
no only entry; whatever is no submenu is not looked into. -/
inductive Settled : Node → Prop
  /-- Any other entry. -/
  | other {node : Node} (hother : ¬node.isSubmenu = true) : Settled node
  /-- A submenu without a name. -/
  | nameless : Settled (.list [submenuHead])
  /-- A submenu of settled entries. -/
  | submenu {name : Node} {entries : List Node} (hentries : ∀ entry ∈ entries, entry.Settled)
      (hsole : ∀ entry, sole? entries = some entry →
        entry.isSubmenu = true ∧ ¬entry.isWrapper = true) :
      Settled (.submenu name entries)

/-- The entries of a settled submenu are settled. -/
theorem Settled.of_mem_entries {node entry : Node} (h : node.Settled)
    (hsubmenu : node.isSubmenu = true) (hentry : entry ∈ node.entries) : entry.Settled := by
  cases h with
  | other hother => exact absurd hsubmenu hother
  | nameless => simp at hentry
  | submenu hentries _ => exact hentries entry (by simpa using hentry)

/-- The only entry of a settled submenu is a submenu that has no only entry. -/
theorem Settled.of_sole? {node entry : Node} (h : node.Settled) (hsubmenu : node.isSubmenu = true)
    (hentry : sole? node.entries = some entry) :
    entry.isSubmenu = true ∧ ¬entry.isWrapper = true := by
  cases h with
  | other hother => exact absurd hsubmenu hother
  | nameless => simp [sole?] at hentry
  | submenu _ hsole => exact hsole entry (by simpa using hentry)

/-- An entry that is settled is not changed. -/
theorem Settled.collapseEntry_eq_self {entry : Node} (h : entry.Settled) :
    collapseEntry entry = entry := by
  induction h with
  | other hother => rw [collapseEntry, if_neg hother]
  | nameless => rfl
  | @submenu name entries _ hsole ih =>
    have hentries : entries.map collapseEntry = entries := by
      rw [List.map_congr_left ih, List.map_id']
    rw [collapseEntry, if_pos (isSubmenu_submenu name entries), collapse_submenu, hentries,
      unwrap_eq_submenu name hsole]

/-- What replaces a submenu of settled entries is settled. -/
theorem settled_unwrap (name : Node) {entries : List Node}
    (hentries : ∀ entry ∈ entries, entry.Settled) : (unwrap name entries).Settled := by
  obtain ⟨entry, hsole, hgives⟩ | hstays := gives_way_or_stays entries
  · rw [unwrap_eq_sole name hsole hgives]
    exact hentries entry (mem_of_sole? hsole).1
  · rw [unwrap_eq_submenu name hstays]
    exact .submenu hentries hstays

/-- Every entry is settled by collapsing. -/
theorem settled_collapseEntry (entry : Node) : (collapseEntry entry).Settled := by
  induction entry using byShape with
  | atom text => exact .other (by simp [collapseEntry])
  | menu entries => exact .other (by simp [collapseEntry])
  | nameless => exact .nameless
  | submenu name entries _ ih =>
    rw [collapseEntry, if_pos (isSubmenu_submenu name entries), collapse_submenu]
    refine settled_unwrap name fun collapsed hcollapsed => ?_
    obtain ⟨entry, hentry, rfl⟩ := List.mem_map.mp hcollapsed
    exact ih entry hentry
  | group items hgroup => exact .other (by simp [collapseEntry, isSubmenu_group hgroup])

/-- Collapsed entries are settled. -/
theorem settled_of_mem_map_collapseEntry {entries : List Node} :
    ∀ entry ∈ entries.map collapseEntry, entry.Settled := by
  intro collapsed hcollapsed
  obtain ⟨entry, -, rfl⟩ := List.mem_map.mp hcollapsed
  exact settled_collapseEntry entry

/-- A menu takes over settled entries only. -/
theorem settled_of_mem_absorb {entries : List Node} (hentries : ∀ entry ∈ entries, entry.Settled) :
    ∀ entry ∈ absorb entries, entry.Settled := by
  refine absorb_invariant (motive := fun taken => ∀ entry ∈ taken, entry.Settled) ?_ hentries
  intro taken entry htaken hsole hsubmenu inner hinner
  exact (htaken entry (mem_of_sole? hsole).1).of_mem_entries hsubmenu hinner

/-! ### Settled trees -/

/-- The trees that collapsing ends in. A group is not looked into. -/
inductive SettledRoot : Node → Prop
  /-- A menu of settled entries; if there is an only one, then it is no submenu. -/
  | menu {entries : List Node} (hentries : ∀ entry ∈ entries, entry.Settled)
      (hsole : ∀ entry, sole? entries = some entry → ¬entry.isSubmenu = true) :
      SettledRoot (.menu entries)
  /-- A settled submenu, or neither a menu nor a submenu. -/
  | other {node : Node} (hmenu : ¬node.isMenu = true) (h : node.Settled) : SettledRoot node

/-- The only entry of a settled menu is no submenu. -/
theorem SettledRoot.not_isSubmenu_of_sole? {node entry : Node} (h : node.SettledRoot)
    (hmenu : node.isMenu = true) (hentry : sole? node.entries = some entry) :
    ¬entry.isSubmenu = true := by
  cases h with
  | menu _ hsole => exact hsole entry (by simpa using hentry)
  | other hother => exact absurd hmenu hother

/-- A tree that is neither a menu nor a submenu is left as it is. -/
theorem collapse_eq_self_of_other {node : Node} (hmenu : ¬node.isMenu = true)
    (hsubmenu : ¬node.isSubmenu = true) : node.collapse = node := by
  cases node using byShape with
  | atom text => rfl
  | menu entries => simp at hmenu
  | nameless => rfl
  | submenu name entries => simp at hsubmenu
  | group items hgroup => exact collapse_group hgroup

/-- A settled tree is not changed. -/
theorem SettledRoot.collapse_eq_self {node : Node} (h : node.SettledRoot) :
    node.collapse = node := by
  cases h with
  | @menu entries hentries hsole =>
    have hsettled : entries.map collapseEntry = entries := by
      rw [List.map_congr_left fun entry hentry => (hentries entry hentry).collapseEntry_eq_self,
        List.map_id']
    rw [collapse_menu, hsettled, absorb_eq_self hsole]
  | other hmenu h =>
    by_cases hsubmenu : node.isSubmenu = true
    · have hentry := h.collapseEntry_eq_self
      rwa [collapseEntry, if_pos hsubmenu] at hentry
    · exact collapse_eq_self_of_other hmenu hsubmenu

/-- No menu is below a tree, at any place. -/
def NoMenuBelow (node : Node) : Prop :=
  ∀ item ∈ node.items, ∀ inner, item.Contains inner → ¬inner.isMenu = true

/-- An item of a tree without a menu below is no menu, and has none below either. -/
theorem NoMenuBelow.of_mem_items {node item : Node} (h : node.NoMenuBelow)
    (hitem : item ∈ node.items) : ¬item.isMenu = true ∧ item.NoMenuBelow :=
  ⟨h item hitem item .refl, fun _ hinner _ hreach => h item hitem _ (.head hinner hreach)⟩

/-- A menu shows in the atoms of the lists around it. -/
theorem Contains.mem_atoms {node inner : Node} (hreach : node.Contains inner)
    (hmenu : inner.isMenu = true) : "menu" ∈ node.items.flatMap atoms := by
  induction hreach using Relation.ReflTransGen.head_induction_on with
  | refl =>
    rw [eq_of_isMenu hmenu]
    simp [menu, menuHead]
  | @head node item hstep _ ih =>
    refine List.mem_flatMap.mpr ⟨item, hstep, ?_⟩
    cases item with
    | atom text => simp at ih
    | list items => simpa using ih

/-- Where no atom says so there is no menu. -/
theorem noMenuBelow_of_atoms {node : Node}
    (h : ∀ item ∈ node.items, "menu" ∉ item.items.flatMap atoms) : node.NoMenuBelow :=
  fun item hitem _ hreach hmenu => h item hitem (Contains.mem_atoms hreach hmenu)

/-- Collapsing makes no menu of a tree if there is none below. -/
theorem not_isMenu_collapse {node : Node} (hmenu : ¬node.isMenu = true)
    (hbelow : node.NoMenuBelow) : ¬node.collapse.isMenu = true := by
  induction node using byShape with
  | atom text => simp [collapse]
  | menu entries => simp at hmenu
  | nameless => exact hmenu
  | submenu name entries _ ih =>
    rw [collapse_submenu]
    obtain ⟨collapsed, hsole, hgives⟩ | hstays := gives_way_or_stays (entries.map collapseEntry)
    · rw [unwrap_eq_sole name hsole hgives]
      obtain ⟨entry, hentry, rfl⟩ := List.mem_map.mp (mem_of_sole? hsole).1
      have hitem : entry ∈ (submenu name entries).items := by simp [submenu, hentry]
      obtain ⟨hmenu, hbelow⟩ := hbelow.of_mem_items hitem
      rw [collapseEntry]
      split
      · exact ih entry hentry hmenu hbelow
      · exact hmenu
    · simp [unwrap_eq_submenu name hstays]
  | group items hgroup => rwa [collapse_group hgroup]

/-- A tree without a menu below is settled by collapsing. -/
theorem settledRoot_collapse {node : Node} (hbelow : node.NoMenuBelow) :
    node.collapse.SettledRoot := by
  by_cases hmenu : node.isMenu = true
  · rw [eq_of_isMenu hmenu, collapse_menu]
    exact .menu (settled_of_mem_absorb settled_of_mem_map_collapseEntry)
      fun entry hsole => not_isSubmenu_of_sole?_absorb hsole
  · refine .other (not_isMenu_collapse hmenu hbelow) ?_
    by_cases hsubmenu : node.isSubmenu = true
    · have hsettled := settled_collapseEntry node
      rwa [collapseEntry, if_pos hsubmenu] at hsettled
    · rw [collapse_eq_self_of_other hmenu hsubmenu]
      exact .other hsubmenu

/-! ### What is reached through submenus -/

/-- An entry of a menu or of a submenu that is a submenu. A group is not looked into. -/
def HasSubmenu (node entry : Node) : Prop :=
  (node.isMenu = true ∨ node.isSubmenu = true) ∧ entry ∈ node.entries ∧ entry.isSubmenu = true

/-- A tree that is reached from a menu or from a submenu through entries that are submenus, or the
whole tree. -/
def ReachesSubmenu : Node → Node → Prop := Relation.ReflTransGen HasSubmenu

/-- A submenu that is reached from a settled tree is settled. -/
theorem SettledRoot.settled_of_reachesSubmenu {node inner : Node} (h : node.SettledRoot)
    (hreach : node.ReachesSubmenu inner) (hsubmenu : inner.isSubmenu = true) : inner.Settled := by
  have hroot : inner.SettledRoot := by
    clear hsubmenu
    induction hreach with
    | refl => exact h
    | tail _ hstep ih =>
      obtain ⟨hkind, hentry, hsubmenu⟩ := hstep
      refine .other (not_isMenu_of_isSubmenu hsubmenu) ?_
      cases ih with
      | menu hentries => exact hentries _ (by simpa using hentry)
      | other hmenu h => exact h.of_mem_entries (hkind.resolve_left hmenu) hentry
  cases hroot with
  | menu => simp at hsubmenu
  | other _ h => exact h

/-! ### Texts and depth -/

/-- The texts of the atoms among the entries of a tree, in document order. Separators are left out,
and a head or a name is no entry. -/
def entryTexts : Node → List String
  | .atom text => if (Node.atom text).isSeparator then [] else [text]
  | .list items => (Node.list items).entries.attach.flatMap fun entry => entry.1.entryTexts
termination_by node => node.depth
decreasing_by exact depth_lt_of_mem_entries entry.2

/-- The texts of a list are those of its entries. -/
theorem entryTexts_list (items : List Node) :
    (Node.list items).entryTexts = (Node.list items).entries.flatMap entryTexts := by
  rw [entryTexts]
  simp

/-- The texts of a menu are those of its entries. -/
theorem entryTexts_menu (entries : List Node) :
    (menu entries).entryTexts = entries.flatMap entryTexts := by
  rw [menu, entryTexts_list, ← menu, entries_menu]

/-- The name of a submenu is not among the texts of its entries. -/
theorem entryTexts_submenu (name : Node) (entries : List Node) :
    (submenu name entries).entryTexts = entries.flatMap entryTexts := by
  rw [submenu, entryTexts_list, ← submenu, entries_submenu]

/-- A separator has no text. -/
private theorem entryTexts_separator : separator.entryTexts = [] := by
  rw [separator, entryTexts]
  rfl

/-- If collapsing keeps the texts of each entry, it keeps those of the list. -/
private theorem flatMap_entryTexts_map_collapseEntry {entries : List Node}
    (ih : ∀ entry ∈ entries, entry.collapse.entryTexts = entry.entryTexts) :
    (entries.map collapseEntry).flatMap entryTexts = entries.flatMap entryTexts := by
  rw [List.flatMap_map]
  refine List.flatMap_congr fun entry hentry => ?_
  rw [collapseEntry]
  split
  · exact ih entry hentry
  · rfl

/-- Collapsing keeps every atom among the entries in its place, and moves only what is around it. -/
theorem entryTexts_collapse (node : Node) : node.collapse.entryTexts = node.entryTexts := by
  induction node using byShape with
  | atom text => rfl
  | menu entries ih =>
    have habsorb := flatMap_absorb entryTexts_separator (fun node hsubmenu => by
      cases node with
      | atom text => simp at hsubmenu
      | list items => exact entryTexts_list items) (entries.map collapseEntry)
    rw [collapse_menu, entryTexts_menu, habsorb, flatMap_entryTexts_map_collapseEntry ih,
      entryTexts_menu]
  | nameless => rfl
  | submenu name entries _ ih =>
    rw [collapse_submenu, entryTexts_submenu, ← flatMap_entryTexts_map_collapseEntry ih]
    obtain ⟨entry, hsole, hgives⟩ | hstays := gives_way_or_stays (entries.map collapseEntry)
    · rw [unwrap_eq_sole name hsole hgives, flatMap_of_sole? entryTexts_separator hsole]
    · rw [unwrap_eq_submenu name hstays, entryTexts_submenu]
  | group items hgroup => rw [collapse_group hgroup]

/-- If collapsing deepens no entry, none gets deeper than the list was. -/
private theorem depth_le_of_mem_map_collapseEntry {entries : List Node}
    (ih : ∀ entry ∈ entries, entry.collapse.depth ≤ entry.depth) :
    ∀ entry ∈ entries.map collapseEntry, entry.depth ≤ depthOfAll entries := by
  intro collapsed hcollapsed
  obtain ⟨entry, hentry, rfl⟩ := List.mem_map.mp hcollapsed
  have hdepth := depth_le_depthOfAll hentry
  rw [collapseEntry]
  split
  · exact (ih entry hentry).trans hdepth
  · exact hdepth

/-- Collapsing does not nest lists more deeply. -/
theorem depth_collapse_le (node : Node) : node.collapse.depth ≤ node.depth := by
  induction node using byShape with
  | atom text => exact le_rfl
  | menu entries ih =>
    have hentries := depthOfAll_le_iff.mpr
      (depth_le_of_mem_absorb (depth_le_of_mem_map_collapseEntry ih))
    rw [collapse_menu]
    simp only [menu, depth_list, depthOfAll]
    omega
  | nameless => exact le_rfl
  | submenu name entries _ ih =>
    have hentries := depth_le_of_mem_map_collapseEntry ih
    rw [collapse_submenu]
    obtain ⟨entry, hsole, hgives⟩ | hstays := gives_way_or_stays (entries.map collapseEntry)
    · have hentry := hentries entry (mem_of_sole? hsole).1
      rw [unwrap_eq_sole name hsole hgives]
      simp only [submenu, depth_list, depthOfAll]
      omega
    · have hall := depthOfAll_le_iff.mpr hentries
      rw [unwrap_eq_submenu name hstays]
      simp only [submenu, depth_list, depthOfAll]
      omega
  | group items hgroup => rw [collapse_group hgroup]

/-! ### Collapsing alone -/

/-- **Collapsing settles a tree and keeps its content.** If no menu is below a tree, pruned or not,
then collapsing it once more changes nothing. It keeps the atoms among the entries and their order,
and does not nest lists more deeply. If the result is a menu with an only entry, then this is no
submenu. A named submenu that is reached from the result through submenus, and has an only entry,
has a submenu there, which does not have an only entry itself. -/
theorem collapse_settles {node : Node} (hbelow : node.NoMenuBelow) :
    node.collapse.collapse = node.collapse ∧
      node.collapse.entryTexts = node.entryTexts ∧
      node.collapse.depth ≤ node.depth ∧
      (node.collapse.isMenu = true → ∀ entry, meaningful node.collapse.entries = [entry] →
        ¬entry.isSubmenu = true) ∧
      ∀ name entries, node.collapse.ReachesSubmenu (submenu name entries) →
        ∀ entry, meaningful entries = [entry] →
          entry.isSubmenu = true ∧ (meaningful entry.entries).length ≠ 1 := by
  have hsettled := settledRoot_collapse hbelow
  refine ⟨hsettled.collapse_eq_self, entryTexts_collapse node, depth_collapse_le node, ?_, ?_⟩
  · intro hmenu entry hentry
    exact hsettled.not_isSubmenu_of_sole? hmenu (sole?_eq_some_iff.mpr hentry)
  · intro name entries hreach entry hentry
    have hinner := hsettled.settled_of_reachesSubmenu hreach (isSubmenu_submenu name entries)
    have hsole : sole? (submenu name entries).entries = some entry := by
      rw [entries_submenu, sole?_eq_some_iff, hentry]
    obtain ⟨hsubmenu, hwrapper⟩ := hinner.of_sole? (isSubmenu_submenu name entries) hsole
    refine ⟨hsubmenu, fun hlength => hwrapper ?_⟩
    obtain ⟨only, honly⟩ := List.length_eq_one_iff.mp hlength
    exact isWrapper_iff.mpr ⟨hsubmenu, only, sole?_eq_some_iff.mpr honly⟩

/-- Of three submenus inside of each other, the outer one gives way to the second, which stays
because the inner one offers a choice. A submenu in a group is left as it is. -/
theorem collapse_settles_of_wrapper_chain :
    (menu [separator, submenu (.atom "a") [submenu (.atom "b") [submenu (.atom "c")
        [.atom "x", separator, .atom "y"]]], .list [submenu (.atom "d") [.atom "z"]]]).NoMenuBelow ∧
      (menu [separator, submenu (.atom "a") [submenu (.atom "b") [submenu (.atom "c")
        [.atom "x", separator, .atom "y"]]], .list [submenu (.atom "d") [.atom "z"]]]).collapse =
        menu [separator, submenu (.atom "b") [submenu (.atom "c")
          [.atom "x", separator, .atom "y"]], .list [submenu (.atom "d") [.atom "z"]]] ∧
      (menu [separator, submenu (.atom "b") [submenu (.atom "c")
        [.atom "x", separator, .atom "y"]], .list [submenu (.atom "d") [.atom "z"]]]).collapse =
        menu [separator, submenu (.atom "b") [submenu (.atom "c")
          [.atom "x", separator, .atom "y"]], .list [submenu (.atom "d") [.atom "z"]]] ∧
      (submenu (.atom "c") [.atom "x", separator, .atom "y"]).isSubmenu = true ∧
      (meaningful (submenu (.atom "c") [.atom "x", separator, .atom "y"]).entries).length ≠ 1 := by
  have hbelow : (menu [separator, submenu (.atom "a") [submenu (.atom "b") [submenu (.atom "c")
      [.atom "x", separator, .atom "y"]]],
      .list [submenu (.atom "d") [.atom "z"]]]).NoMenuBelow :=
    noMenuBelow_of_atoms (by decide)
  have hcollapse : (menu [separator, submenu (.atom "a") [submenu (.atom "b") [submenu (.atom "c")
      [.atom "x", separator, .atom "y"]]], .list [submenu (.atom "d") [.atom "z"]]]).collapse =
      menu [separator, submenu (.atom "b") [submenu (.atom "c")
        [.atom "x", separator, .atom "y"]], .list [submenu (.atom "d") [.atom "z"]]] := by decide
  obtain ⟨htwice, -, -, -, hreached⟩ := collapse_settles hbelow
  rw [hcollapse] at htwice hreached
  have hstep : (menu [separator, submenu (.atom "b") [submenu (.atom "c")
      [.atom "x", separator, .atom "y"]], .list [submenu (.atom "d") [.atom "z"]]]).ReachesSubmenu
        (submenu (.atom "b") [submenu (.atom "c") [.atom "x", separator, .atom "y"]]) :=
    .single ⟨Or.inl (by decide), by decide, by decide⟩
  exact ⟨hbelow, hcollapse, htwice, hreached _ _ hstep _ (by decide)⟩

end Node

end Menus
