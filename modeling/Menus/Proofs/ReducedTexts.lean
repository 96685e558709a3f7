import Menus.Proofs.Conservation
import Menus.Proofs.ReadRuns
import Menus.Proofs.RoundTrip
import Menus.Proofs.Tokens
import Menus.Text.Blank

/-!
# The text of a reduced tree

The atoms of a tree that was read are tokens, except that the last one may be a bracket left open.
A reduction leaves no such bracket: its result ends with an atom that is kept, or with the head of
an empty menu. So the reduced tree of a text is written as a text that is read as that tree again,
and that text has no characters but those of its atoms, parentheses and gaps.
-/

namespace Menus

/-- What is reduced is the root, and what remains is an empty menu if nothing else is kept. -/
theorem reduce_cases (root : Option Node) :
    (∃ node, root = some node ∧ node.prune = some (reduce root)) ∨ reduce root = .menu [] := by
  cases root with
  | none => exact Or.inr rfl
  | some node =>
    cases h : node.prune with
    | none => exact Or.inr (by simp [reduce, h])
    | some pruned => exact Or.inl ⟨node, rfl, by simp [reduce, h]⟩

/-- A reduction leaves a reduced tree as it is. -/
theorem Node.Reduced.reduce_eq_self {node : Node} (h : node.Reduced) :
    reduce (some node) = node := by
  simp [reduce, h.prune_eq_self]

/-! ### The last atom -/

/-- The atoms that a reduced tree can end with. -/
def IsLastText (text : String) : Prop := Node.isKeptText text = true ∨ text = "menu"

/-- What starts with the start of a snippet starts with `s`. -/
private theorem head?_of_snippetStart {chars : List Char}
    (h : snippetStart.isPrefixOf chars = true) : chars.head? = some 's' := by
  obtain ⟨rest, rfl⟩ := List.isPrefixOf_iff_prefix.mp h
  rfl

namespace IsLastText

/-- The last atom of a reduced tree starts with one of three characters, or it is in brackets. -/
private theorem cases {text : String} (h : IsLastText text) :
    (∃ c ∈ ['s', '-', 'm'], text.toList.head? = some c) ∨
      ∃ inner, text.toList = '[' :: inner ++ [']'] := by
  obtain hkept | rfl := h
  · rw [Node.isKeptText, isSnippetText, Bool.or_eq_true, Bool.or_eq_true] at hkept
    obtain (hbare | hbracketed) | hseparator := hkept
    · exact Or.inl ⟨'s', by simp, head?_of_snippetStart hbare⟩
    · obtain ⟨inner, hinner, -⟩ := (Option.any_eq_true _ _).mp hbracketed
      exact Or.inr ⟨inner, unbracketed?_eq_some_iff.mp hinner⟩
    · obtain rfl : text = "---" := by simpa using hseparator
      exact Or.inl ⟨'-', by simp, by decide⟩
  · exact Or.inl ⟨'m', by simp, by decide⟩

/-- A reduced tree does not end with a bracket left open. -/
theorem not_isOpenText {text : String} (h : IsLastText text) : ¬IsOpenText text := by
  rintro ⟨inner, hchars, hinner⟩
  obtain ⟨c, hc, hhead⟩ | ⟨rest, hrest⟩ := h.cases
  · rw [hchars] at hhead
    cases hhead
    simp at hc
  · obtain rfl : inner = rest ++ [']'] := by simpa [hchars] using hrest
    simp at hinner

/-- A reduced tree ends with an atom that can be seen. -/
theorem exists_not_isBlank {text : String} (h : IsLastText text) :
    ∃ c ∈ text.toList, ¬isBlank c = true := by
  obtain ⟨c, hc, hhead⟩ | ⟨inner, hinner⟩ := h.cases
  · refine ⟨c, List.mem_of_mem_head? hhead, ?_⟩
    simp only [List.mem_cons, List.not_mem_nil, or_false] at hc
    obtain rfl | rfl | rfl := hc <;> decide
  · exact ⟨'[', by simp [hinner], by decide⟩

end IsLastText

namespace Node

/-- The last of several trees that end with such atoms ends with one. -/
private theorem exists_last_flatMap_atoms {items : List Node} (hitems : items ≠ [])
    (hlast : ∀ item ∈ items, ∃ before last, item.atoms = before ++ [last] ∧ IsLastText last) :
    ∃ before last, items.flatMap atoms = before ++ [last] ∧ IsLastText last := by
  obtain ⟨others, item, rfl⟩ := (List.eq_nil_or_concat' items).resolve_left hitems
  obtain ⟨before, last, hatoms, htext⟩ := hlast item (by simp)
  exact ⟨others.flatMap atoms ++ before, last, by simp [hatoms], htext⟩

/-- A reduced tree ends with an atom that is kept, or it ends with an empty menu. -/
theorem Reduced.exists_last_atom {node : Node} (h : node.Reduced) :
    ∃ before last, node.atoms = before ++ [last] ∧ IsLastText last := by
  induction h with
  | @atom text hkept => exact ⟨[], text, by simp, Or.inl hkept⟩
  | @menu entries _ _ _ ih =>
    by_cases hempty : entries = []
    · exact ⟨[], "menu", by simp [hempty, Node.menu, menuHead], Or.inr rfl⟩
    · obtain ⟨before, last, hatoms, htext⟩ := exists_last_flatMap_atoms hempty ih
      exact ⟨menuHead.atoms ++ before, last, by simp [Node.menu, hatoms], htext⟩
  | @submenu name entries _ _ hcontent _ ih =>
    have hentries : entries ≠ [] := by
      rintro rfl
      exact hcontent meaningful_nil
    obtain ⟨before, last, hatoms, htext⟩ := exists_last_flatMap_atoms hentries ih
    exact ⟨submenuHead.atoms ++ (name.atoms ++ before), last, by simp [Node.submenu, hatoms], htext⟩
  | group _ _ _ hcontent ih =>
    rw [atoms_list]
    exact exists_last_flatMap_atoms hcontent ih

end Node

/-! ### The atoms of the reduced tree of a text -/

/-- The atoms of the reduced tree of a text are some of the atoms of the text, in the same order,
unless the reduced tree is an empty menu. -/
theorem atoms_reduce_sublist (text : String) :
    (reduce (parse text).root).atoms.Sublist (atomTexts (Token.scan text).tokens) ∨
      (reduce (parse text).root).atoms = ["menu"] := by
  obtain ⟨node, hroot, hprune⟩ | hempty := reduce_cases (parse text).root
  · exact Or.inl ((Node.prunes_of_prune hprune).atoms_sublist.trans (parse_atoms_sublist hroot))
  · exact Or.inr (by simp [hempty, Node.menu, Node.menuHead])

/-- The reduced tree of a text has only atoms that can stand in a document. -/
theorem isTokenText_of_mem_atoms_reduce {text atom : String}
    (hatom : atom ∈ (reduce (parse text).root).atoms) : IsTokenText atom := by
  obtain hsublist | hempty := atoms_reduce_sublist text
  · have hlexes := Token.lexes_scan text
    have hpairwise := hlexes.pairwise_isTokenText.sublist hsublist
    obtain ⟨before, last, hatoms, hlast⟩ := (reduced_reduce (parse text).root).exists_last_atom
    rw [hatoms, List.mem_append, List.mem_singleton] at hatom
    obtain hbefore | rfl := hatom
    · rw [hatoms, List.pairwise_append] at hpairwise
      exact hpairwise.2.2 atom hbefore last (by simp)
    · have hmem : atom ∈ atomTexts _ := hsublist.subset (by rw [hatoms]; simp)
      exact (hlexes.isTokenText_or_isOpenText atom hmem).resolve_right hlast.not_isOpenText
  · obtain rfl : atom = "menu" := by simpa [hempty] using hatom
    decide

/-- The reduced tree of a text is within the depth limit. -/
theorem depth_reduce_le (text : String) : (reduce (parse text).root).depth ≤ maxDepth := by
  obtain ⟨node, hroot, hprune⟩ | hempty := reduce_cases (parse text).root
  · exact (Node.prunes_of_prune hprune).depth_le.trans (parse_depth_le hroot)
  · rw [hempty]
    decide

/-! ### Texts that are reduced -/

/-- A text that a reduced tree is written as: it is read as that tree, it can be seen, and all of
its line breaks are line feeds. -/
structure ReducedText (node : Node) (text : String) : Prop where
  reduced : node.Reduced
  printed : node.print = .ok text
  parsed : parse text = ⟨some node, []⟩
  visible : ∃ c ∈ text.toList, ¬isBlank c = true
  noReturn : '\r' ∉ text.toList

/-- Whatever the reduced tree of a text is written as can be seen. -/
theorem exists_visible_of_print {text written : String}
    (hprint : (reduce (parse text).root).print = .ok written) :
    ∃ c ∈ written.toList, ¬isBlank c = true := by
  obtain ⟨before, last, hlast, htext⟩ := (reduced_reduce (parse text).root).exists_last_atom
  obtain ⟨c, hc, hblank⟩ := htext.exists_not_isBlank
  have htexts :=
    atomTexts_of_symbols (scan_print hprint fun _ => isTokenText_of_mem_atoms_reduce).1
  refine ⟨c, (Token.lexes_scan written).mem_of_mem_atomTexts ?_ hc, hblank⟩
  rw [htexts, hlast]
  simp

/-- The reduced tree of a text without carriage returns has a text of this kind. -/
theorem reducedText_of_print {text written : String} (hreturn : '\r' ∉ text.toList)
    (hprint : (reduce (parse text).root).print = .ok written) :
    ReducedText (reduce (parse text).root) written := by
  have hatoms : ∀ atom ∈ (reduce (parse text).root).atoms, IsTokenText atom :=
    fun atom => isTokenText_of_mem_atoms_reduce
  have hreduced := reduced_reduce (parse text).root
  have hlexes := Token.lexes_scan written
  have htexts := atomTexts_of_symbols (scan_print hprint hatoms).1
  refine ⟨hreduced, hprint, parse_of_print hprint hatoms (depth_reduce_le text),
    exists_visible_of_print hprint, fun hc => ?_⟩
  cases hlexes.isCharAmong hc with
  | gap hgap => exact absurd hgap (by decide)
  | @atom atom _ hatom hc =>
    rw [htexts] at hatom
    obtain hsublist | hempty := atoms_reduce_sublist text
    · have hmem := (Token.lexes_scan text).mem_of_mem_atomTexts (hsublist.subset hatom) hc
      exact hreturn hmem
    · obtain rfl : atom = "menu" := by simpa [hempty] using hatom
      simp at hc

end Menus
