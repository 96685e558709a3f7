import Menus.Proofs.NormalForm

/-!
# The lists of a reduced tree

The normal form is stated for a whole tree at once. This file reads off what it means for a single
list that a user can reach through entries: what its atoms are, where its separators stand, and
that no submenu or menu with a single entry could have collapsed any further.
-/

namespace Menus

namespace Node

/-- What holds of every list among the entries of a reduced tree. An atom has no entries. -/
structure Clean (node : Node) : Prop where
  /-- An atom among the entries is a snippet or a separator. -/
  kept : ∀ text, .atom text ∈ node.entries → isSnippetText text = true ∨ text = "---"
  /-- Separators stand between other entries, one at a time. -/
  tidy : Tidy node.entries
  /-- A group has items. -/
  nonempty : node ≠ .list []
  /-- A submenu has a name. -/
  named : node.isSubmenu = true → ∃ name, node = submenu name node.entries
  /-- A submenu has an entry that is no separator. -/
  content : node.isSubmenu = true → ∃ entry ∈ node.entries, entry ≠ separator
  /-- A submenu with a single entry has a submenu there, and that one has several entries. -/
  choice : node.isSubmenu = true → ∀ entry, meaningful node.entries = [entry] →
    entry.isSubmenu = true ∧ 2 ≤ (meaningful entry.entries).length
  /-- A menu with a single entry has no submenu there. -/
  absorbed : node.isMenu = true → ∀ entry, meaningful node.entries = [entry] →
    ¬entry.isSubmenu = true

/-- Whatever is reached through the entries of a reduced tree is reduced. -/
theorem Reduced.of_reaches {node inner : Node} (h : node.Reduced) (hreach : node.Reaches inner) :
    inner.Reduced := by
  induction hreach with
  | refl => exact h
  | tail _ hentry ih => exact ih.of_mem_entries hentry

/-- The entries of a reduced tree are tidy. -/
theorem Reduced.tidy_entries {node : Node} (h : node.Reduced) : Tidy node.entries := by
  cases h with
  | atom => exact ⟨by simp, by simp, List.IsChain.nil⟩
  | menu _ htidy => simpa using htidy
  | submenu _ htidy => simpa using htidy
  | group hgroup _ htidy => simpa [entries_group hgroup] using htidy

/-- A reduced submenu that is no wrapper offers a choice. -/
theorem Reduced.two_le_length {node : Node} (h : node.Reduced) (hsubmenu : node.isSubmenu = true)
    (hwrapper : ¬node.isWrapper = true) : 2 ≤ (meaningful node.entries).length := by
  obtain ⟨name, entries, rfl, -, hcontent, -⟩ := h.eq_submenu hsubmenu
  rw [entries_submenu]
  rcases hmeaningful : meaningful entries with - | ⟨entry, - | ⟨second, rest⟩⟩
  · exact absurd hmeaningful hcontent
  · have hsole : sole? entries = some entry := sole?_eq_some_iff.mpr hmeaningful
    exact absurd (isWrapper_iff.mpr ⟨hsubmenu, entry, by simpa using hsole⟩) hwrapper
  · simp

/-- A reduced tree is clean at its root. -/
theorem Reduced.clean {node : Node} (h : node.Reduced) : node.Clean where
  kept := by
    intro text htext
    cases h.of_mem_entries htext with
    | atom hkept => simpa [isKeptText] using hkept
  tidy := h.tidy_entries
  nonempty := by
    rintro rfl
    cases h with
    | group _ _ _ hcontent => exact hcontent rfl
  named := by
    intro hsubmenu
    obtain ⟨name, entries, rfl, -⟩ := h.eq_submenu hsubmenu
    exact ⟨name, by rw [entries_submenu]⟩
  content := by
    intro hsubmenu
    obtain ⟨name, entries, rfl, -, hcontent, -⟩ := h.eq_submenu hsubmenu
    obtain ⟨entry, hentry⟩ := List.exists_mem_of_ne_nil _ hcontent
    rw [entries_submenu]
    exact ⟨entry, mem_meaningful.mp hentry⟩
  choice := by
    intro hsubmenu entry hsole
    rw [← sole?_eq_some_iff] at hsole
    have hentry : entry.Reduced := h.of_mem_entries (mem_of_sole? hsole).1
    obtain ⟨name, entries, rfl, -, -, hchoice⟩ := h.eq_submenu hsubmenu
    rw [entries_submenu] at hsole
    obtain ⟨hinner, hwrapper⟩ := hchoice entry hsole
    exact ⟨hinner, hentry.two_le_length hinner hwrapper⟩
  absorbed := by
    intro hmenu entry hsole
    cases h with
    | atom => simp at hmenu
    | menu _ _ habsorbed =>
      rw [entries_menu, ← sole?_eq_some_iff] at hsole
      exact habsorbed entry hsole
    | submenu => simp at hmenu
    | group hgroup => simp [isMenu_group hgroup] at hmenu

/-- **What a reduction leaves is fixed by every pass.** A pruned tree is neither pruned nor
collapsed any further. In each of its lists that are reached through entries, the separators are
tidy already, and every single entry is pruned to itself. -/
theorem fixed_by_every_pass {node pruned : Node} (h : node.prune = some pruned) :
    pruned.prune = some pruned ∧ pruned.collapse = pruned ∧
      ∀ inner, pruned.Reaches inner →
        tidySeparators inner.entries = inner.entries ∧
          ∀ entry ∈ inner.entries, entry.prune = some entry := by
  have hreduced := reduced_of_prune h
  refine ⟨hreduced.prune_eq_self, hreduced.collapse_eq_self, fun inner hreach => ?_⟩
  have hinner := hreduced.of_reaches hreach
  exact ⟨hinner.tidy_entries.tidySeparators_eq_self,
    fun entry hentry => (hinner.of_mem_entries hentry).prune_eq_self⟩

/-- A menu inside of a submenu that is named by a list, and a group of a group. -/
theorem fixed_by_every_pass_of_menu_in_submenu :
    (Node.submenu (.list [.atom "x"]) [.atom "lost", .menu [.submenu (.atom "a")
        [.atom "snippet.x", .separator, .atom "snippet.y"]],
        .list [.list [.atom "snippet.z"]]]).prune =
      some (.submenu (.list [.atom "x"]) [.menu [.atom "snippet.x", .separator, .atom "snippet.y"],
        .list [.list [.atom "snippet.z"]]]) ∧
    (Node.menu [.atom "snippet.x", .separator, .atom "snippet.y"]).prune =
      some (.menu [.atom "snippet.x", .separator, .atom "snippet.y"]) := by
  have hpruned : (Node.submenu (.list [.atom "x"]) [.atom "lost", .menu [.submenu (.atom "a")
        [.atom "snippet.x", .separator, .atom "snippet.y"]],
        .list [.list [.atom "snippet.z"]]]).prune =
      some (.submenu (.list [.atom "x"]) [.menu [.atom "snippet.x", .separator, .atom "snippet.y"],
        .list [.list [.atom "snippet.z"]]]) := by decide
  exact ⟨hpruned, ((fixed_by_every_pass hpruned).2.2 _ .refl).2 _ (by decide)⟩

end Node

/-- Every list that is reached through the entries of a pruned tree, or of the reduced tree of a
document, is clean. -/
theorem clean_of_reaches_reduced_tree :
    (∀ node pruned : Node, node.prune = some pruned →
      ∀ inner, pruned.Reaches inner → inner.Clean) ∧
    ∀ root inner, (reduce root).Reaches inner → inner.Clean :=
  ⟨fun _ _ h _ hreach => ((Node.reduced_of_prune h).of_reaches hreach).clean,
    fun root _ hreach => ((reduced_reduce root).of_reaches hreach).clean⟩

/-- Of three submenus around each other the outer one gives way; the inner one is clean. -/
theorem clean_of_inner_submenu :
    (Node.menu [.atom "snippet.x", .submenu (.atom "a") [.submenu (.atom "b")
        [.submenu (.atom "c")
          [.atom "snippet.y", .separator, .separator, .atom "snippet.z"]]]]).prune =
      some (.menu [.atom "snippet.x", .submenu (.atom "b")
        [.submenu (.atom "c") [.atom "snippet.y", .separator, .atom "snippet.z"]]]) ∧
    (Node.submenu (.atom "c") [.atom "snippet.y", .separator, .atom "snippet.z"]).Clean := by
  have hpruned : (Node.menu [.atom "snippet.x", .submenu (.atom "a") [.submenu (.atom "b")
        [.submenu (.atom "c")
          [.atom "snippet.y", .separator, .separator, .atom "snippet.z"]]]]).prune =
      some (.menu [.atom "snippet.x", .submenu (.atom "b")
        [.submenu (.atom "c") [.atom "snippet.y", .separator, .atom "snippet.z"]]]) := by decide
  have houter : (Node.menu [.atom "snippet.x", .submenu (.atom "b")
        [.submenu (.atom "c") [.atom "snippet.y", .separator, .atom "snippet.z"]]]).Reaches
      (.submenu (.atom "b")
        [.submenu (.atom "c") [.atom "snippet.y", .separator, .atom "snippet.z"]]) :=
    .single (by decide)
  exact ⟨hpruned, clean_of_reaches_reduced_tree.1 _ _ hpruned _ (houter.tail (by decide))⟩

end Menus
