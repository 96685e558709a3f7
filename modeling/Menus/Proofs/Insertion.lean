import Menus.Proofs.NormalForm

/-!
# Entries that leave no trace

A reduction comes to the same tree when something that it drops is put among the entries of a list,
or one more separator where it divides nothing that is not divided already. So it does not matter
what a document holds besides its snippets, nor where. The decisions about single entries are taken
after the entries are pruned, and separators do not count in them.
-/

namespace Menus

/-- The kinds of list that have entries. -/
inductive Frame where
  | menu
  /-- A submenu with its name. -/
  | submenu (name : Node)
  | group

namespace Frame

/-- The list of a kind that has the given entries. -/
def node (frame : Frame) (entries : List Node) : Node :=
  match frame with
  | .menu => .menu entries
  | .submenu name => .submenu name entries
  | .group => .list entries

/-- The entries of a group must not make it a menu or a submenu. Other lists have their head. -/
def Fits (frame : Frame) (entries : List Node) : Prop :=
  match frame with
  | .menu => True
  | .submenu _ => True
  | .group => Node.IsGroup entries

/-- What becomes of the list when its entries are pruned to the given ones. -/
def pruned? (frame : Frame) (entries : List Node) : Option Node :=
  match frame with
  | .menu => some (Node.prunedMenu entries)
  | .submenu name => Node.prunedSubmenu? name entries
  | .group => Node.prunedGroup? entries

end Frame

/-- An entry between others that has no part in the result: pruning drops it, or it is a separator
at either end or next to another separator. -/
def LeavesNoTrace (entry : Node) (before after : List Node) : Prop :=
  entry.prune = none ∨
    entry = .separator ∧ ((∀ last ∈ before.getLast?, last = .separator) ∨
      ∀ next ∈ after.head?, next = .separator)

/-- The second tree is the first one with one more entry that leaves no trace, in a list that is
reached through entries. At the front of a group the entry must not be a head that makes it a menu
or a submenu. -/
inductive GainsEntry : Node → Node → Prop
  /-- The entry is put into the list itself. -/
  | here {frame : Frame} {entry : Node} {before after : List Node}
      (hentry : LeavesNoTrace entry before after) (hfits : frame.Fits (before ++ after))
      (hstays : frame.Fits (before ++ entry :: after)) :
      GainsEntry (frame.node (before ++ after)) (frame.node (before ++ entry :: after))
  /-- The entry is put into one of the entries. -/
  | inside {frame : Frame} {first second : Node} {before after : List Node}
      (h : GainsEntry first second) (hfits : frame.Fits (before ++ first :: after)) :
      GainsEntry (frame.node (before ++ first :: after)) (frame.node (before ++ second :: after))

namespace Node

/-! ### Entries that are tidied to the same ones -/

/-- Entries that are the same up to separators have the same other entries. -/
private theorem meaningful_congr {first second : List Node}
    (h : tidySeparators first = tidySeparators second) : meaningful first = meaningful second := by
  rw [← meaningful_tidySeparators, h, meaningful_tidySeparators]

/-- Absorbing respects that entries are the same up to separators. -/
private theorem tidySeparators_absorb_congr {first second : List Node}
    (h : tidySeparators first = tidySeparators second) :
    tidySeparators (absorb first) = tidySeparators (absorb second) := by
  have hsole : sole? first = sole? second := sole?_congr (meaningful_congr h)
  by_cases hchain : ∃ entry, sole? second = some entry ∧ entry.isSubmenu = true
  · obtain ⟨entry, hentry, hsubmenu⟩ := hchain
    rw [absorb_of_isSubmenu (hsole.trans hentry) hsubmenu, absorb_of_isSubmenu hentry hsubmenu]
  · have hstop : ∀ entry, sole? second = some entry → ¬entry.isSubmenu = true :=
      fun entry hentry hsubmenu => hchain ⟨entry, hentry, hsubmenu⟩
    rw [absorb_eq_self hstop, absorb_eq_self (hsole ▸ hstop), h]

/-- So does pruning a submenu with reduced entries. -/
private theorem prunedSubmenu?_congr (name : Node) {first second : List Node}
    (hfirst : ∀ entry ∈ first, entry.Reduced) (hsecond : ∀ entry ∈ second, entry.Reduced)
    (h : tidySeparators first = tidySeparators second) :
    prunedSubmenu? name first = prunedSubmenu? name second := by
  have hsole : sole? first = sole? second := sole?_congr (meaningful_congr h)
  obtain ⟨entry, hentry, hgives⟩ | hstays := gives_way_or_stays second
  · rw [prunedSubmenu?_of_gives_way name hfirst (hsole.trans hentry) hgives,
      prunedSubmenu?_of_gives_way name hsecond hentry hgives]
  · rw [prunedSubmenu?_of_stays name hfirst (hsole ▸ hstays),
      prunedSubmenu?_of_stays name hsecond hstays, meaningful_congr h, h]

end Node

namespace Frame

open Node

/-- A list is pruned by its kind, after its entries. -/
theorem prune_node {frame : Frame} {entries : List Node} (hfits : frame.Fits entries) :
    (frame.node entries).prune = frame.pruned? (entries.filterMap prune) := by
  cases frame with
  | menu => exact prune_menu entries
  | submenu name => exact prune_submenu name entries
  | group => exact prune_group hfits

/-- Of pruned entries it only matters what they are tidied to. -/
theorem pruned?_congr (frame : Frame) {first second : List Node}
    (h : tidySeparators (first.filterMap prune) = tidySeparators (second.filterMap prune)) :
    frame.pruned? (first.filterMap prune) = frame.pruned? (second.filterMap prune) := by
  have hfirst := reduced_of_mem_filterMap_prune first
  have hsecond := reduced_of_mem_filterMap_prune second
  cases frame with
  | menu =>
    rw [pruned?, pruned?, prunedMenu_eq hfirst, prunedMenu_eq hsecond,
      tidySeparators_absorb_congr h]
  | submenu name => exact prunedSubmenu?_congr name hfirst hsecond h
  | group => rw [pruned?, pruned?, prunedGroup?, prunedGroup?, h]

/-- A list takes the place of another entry without changing the kind of the list around it. -/
theorem Fits.replace {frame : Frame} {first : Node} {items before after : List Node}
    (h : frame.Fits (before ++ first :: after)) : frame.Fits (before ++ .list items :: after) := by
  cases frame with
  | menu => trivial
  | submenu name => trivial
  | group =>
    cases before with
    | nil => exact ⟨by simp [menuHead], by simp [submenuHead]⟩
    | cons head before => exact h

end Frame

/-! ### One more entry -/

/-- A separator is kept. -/
private theorem prune_separator : Node.separator.prune = some .separator := by decide

/-- Pruning keeps a separator where it is: at the end of what comes before. -/
private theorem last_filterMap_prune {before : List Node}
    (hlast : ∀ last ∈ before.getLast?, last = .separator) :
    ∀ last ∈ (before.filterMap Node.prune).getLast?, last = .separator := by
  obtain rfl | ⟨others, last, rfl⟩ := before.eq_nil_or_concat
  · simp
  · obtain rfl := hlast last (by simp)
    simp [List.filterMap_append, prune_separator]

/-- The same at the start of what comes after. -/
private theorem head_filterMap_prune {after : List Node}
    (hhead : ∀ next ∈ after.head?, next = .separator) :
    ∀ next ∈ (after.filterMap Node.prune).head?, next = .separator := by
  cases after with
  | nil => simp
  | cons next after =>
    obtain rfl := hhead next rfl
    simp [prune_separator]

/-- Among the pruned entries, an entry that leaves no trace is not there or can be tidied away. -/
theorem LeavesNoTrace.tidySeparators_eq {entry : Node} {before after : List Node}
    (h : LeavesNoTrace entry before after) :
    tidySeparators ((before ++ entry :: after).filterMap Node.prune) =
      tidySeparators ((before ++ after).filterMap Node.prune) := by
  obtain hnone | ⟨rfl, hnext⟩ := h
  · rw [List.filterMap_append, List.filterMap_cons_none hnone, ← List.filterMap_append]
  · rw [List.filterMap_append, List.filterMap_cons_some prune_separator, List.filterMap_append]
    exact tidySeparators_insert (hnext.imp last_filterMap_prune head_filterMap_prune)

/-- What has gained an entry is a list. -/
theorem GainsEntry.exists_list {first second : Node} (h : GainsEntry first second) :
    ∃ items, second = .list items := by
  obtain ⟨frame, entries, rfl⟩ : ∃ frame : Frame, ∃ entries, second = frame.node entries := by
    cases h with
    | here => exact ⟨_, _, rfl⟩
    | inside => exact ⟨_, _, rfl⟩
  cases frame with
  | menu => exact ⟨_, rfl⟩
  | submenu name => exact ⟨_, rfl⟩
  | group => exact ⟨_, rfl⟩

/-- **What is removed has no influence.** A tree is pruned to the same one, or dropped like it, when
one of its lists gains an entry that leaves no trace, however deep that list is and however large
the entry. -/
theorem prune_of_gainsEntry {first second : Node} (h : GainsEntry first second) :
    second.prune = first.prune := by
  induction h with
  | @here frame entry before after hentry hfits hstays =>
    rw [frame.prune_node hstays, frame.prune_node hfits]
    exact frame.pruned?_congr hentry.tidySeparators_eq
  | @inside frame first second before after h hfits ih =>
    obtain ⟨items, rfl⟩ := h.exists_list
    rw [frame.prune_node hfits.replace, frame.prune_node hfits]
    simp only [List.filterMap_append, List.filterMap_cons, ih]

/-- A submenu without content beside the only submenu of a submenu, which is the only entry of a
menu: the menu takes over the same entries as without it. -/
theorem prune_of_gainsEntry_in_wrapper :
    GainsEntry
        (.menu [.submenu (.atom "a") [.separator,
          .submenu (.atom "b") [.atom "snippet.x", .atom "snippet.y"]]])
        (.menu [.submenu (.atom "a") [.separator, .submenu (.atom "c") [.atom "lost", .separator],
          .submenu (.atom "b") [.atom "snippet.x", .atom "snippet.y"]]]) ∧
      (Node.menu [.submenu (.atom "a") [.separator, .submenu (.atom "c") [.atom "lost", .separator],
          .submenu (.atom "b") [.atom "snippet.x", .atom "snippet.y"]]]).prune =
        some (.menu [.atom "snippet.x", .atom "snippet.y"]) := by
  have hinner : GainsEntry
      (.submenu (.atom "a") [.separator,
        .submenu (.atom "b") [.atom "snippet.x", .atom "snippet.y"]])
      (.submenu (.atom "a") [.separator, .submenu (.atom "c") [.atom "lost", .separator],
        .submenu (.atom "b") [.atom "snippet.x", .atom "snippet.y"]]) :=
    @GainsEntry.here (.submenu (.atom "a")) _ [.separator] _ (Or.inl (by decide)) trivial trivial
  have hgains := @GainsEntry.inside .menu _ _ [] [] hinner trivial
  exact ⟨hgains, (prune_of_gainsEntry hgains).trans (by decide)⟩

end Menus
