import Menus.Proofs.Layout
import Menus.Proofs.Scanning

/-!
# Reading a written tree

Whatever place a tree is written at, and whatever the indentation around it, its text is scanned as
its symbols, and then whatever follows. Every part of a text is followed by a blank, a parenthesis
or the end, so no word runs on into the next one. With the result that symbols are read back as
their tree, reading undoes writing.
-/

namespace Menus

open Node

/-! ### What follows an atom -/

/-- A word ends where the text does. -/
private theorem endsWord_nil : EndsWord [] := by
  intro c hc
  cases hc

/-- A word ends before a closing parenthesis. -/
private theorem endsWord_closing (chars : List Char) : EndsWord (')' :: chars) := by
  intro c hc
  cases hc
  rfl

/-- A word ends before a gap. -/
private theorem endsWord_gap {c : Char} (hgap : Token.isGap c = true) (chars : List Char) :
    EndsWord (c :: chars) := by
  intro d hd
  cases hd
  exact Token.isWordChar_eq_false_iff.mpr (Or.inl hgap)

/-- What comes before an item: gaps, at least one. -/
def IsLead (lead : List Char) : Prop := lead ≠ [] ∧ ∀ c ∈ lead, Token.isGap c = true

/-- A word ends before the lead of the next entry. -/
theorem IsLead.endsWord {lead : List Char} (h : IsLead lead) (chars : List Char) :
    EndsWord (lead ++ chars) := by
  obtain ⟨c, blanks, rfl⟩ := List.exists_cons_of_ne_nil h.1
  exact endsWord_gap (h.2 c (by simp)) _

/-- A space is a lead. -/
theorem isLead_blank : IsLead [' '] := by
  simp [IsLead, Token.isGap]

/-- What every parent puts before its entries is a lead. -/
theorem LineParent.isLead_lead (parent : LineParent) (level : Nat) (entry : Node) :
    IsLead (parent.lead level entry) := by
  cases entry with
  | atom text => exact isLead_blank
  | list items => simp +contextual [IsLead, lead, margin, Token.isGap]

/-! ### Scanning a written tree -/

/-- The node's text, at every level and before everything that ends a word, is scanned as the
node's symbols. -/
private def ScansAlways (node : Node) : Prop :=
  ∀ level chars rest symbols, node.layout level = .ok chars → EndsWord rest →
    Scans rest symbols → Scans (chars ++ rest) (node.symbols ++ symbols)

/-- Items that are scanned as their symbols are so together. -/
private theorem scans_layoutAll {lead : Node → List Char} (hlead : ∀ item, IsLead (lead item))
    {level : Nat} {items : List Node} {chars rest : List Char} {symbols : List Symbol}
    (hitems : ∀ item ∈ items, ScansAlways item) (hok : layoutAll lead level items = .ok chars)
    (hends : EndsWord rest) (hrest : Scans rest symbols) :
    EndsWord (chars ++ rest) ∧
      Scans (chars ++ rest) (items.flatMap Node.symbols ++ symbols) := by
  induction items generalizing chars with
  | nil =>
    rw [layoutAll] at hok
    cases hok
    exact ⟨hends, hrest⟩
  | cons item items ih =>
    obtain ⟨first, others, hfirst, hothers, rfl⟩ := layoutAll_cons_eq_ok.mp hok
    obtain ⟨hothersEnd, hothersScan⟩ := ih (fun item h => hitems item (by simp [h])) hothers
    have hscan := hitems item (by simp) level first (others ++ rest) _ hfirst hothersEnd hothersScan
    rw [List.append_assoc, List.append_assoc, List.flatMap_cons, List.append_assoc]
    exact ⟨(hlead item).endsWord _, hscan.gaps (hlead item).2⟩

/-- The text of a tree whose atoms can stand in a document is scanned as the tree's symbols. -/
private theorem scansAlways {node : Node} (hatoms : ∀ text ∈ node.atoms, IsTokenText text) :
    ScansAlways node := by
  induction node using byShape with
  | atom text =>
    intro level chars rest symbols hok hends hrest
    rw [layout_atom] at hok
    cases hok
    rw [symbols_atom, List.singleton_append]
    exact hrest.atom (hatoms text (by simp)) hends
  | menu entries ih =>
    intro level chars rest symbols hok hends hrest
    obtain ⟨inside, hinside, rfl⟩ := layout_menu_eq_ok.mp hok
    have hhead : IsTokenText "menu" := hatoms "menu" (by simp [menu, menuHead])
    have hentries : ∀ entry ∈ entries, ScansAlways entry := fun entry hentry =>
      ih entry hentry fun text htext => hatoms text (mem_atoms_list (by simp [hentry]) htext)
    obtain ⟨hinsideEnd, hinsideScan⟩ :=
      scans_layoutAll (LineParent.menu.isLead_lead _) hentries hinside (endsWord_closing rest)
        hrest.closing
    have hscan := (hinsideScan.atom hhead hinsideEnd).opening
    simpa [menu, menuHead] using hscan
  | nameless =>
    intro level chars rest symbols hok
    rw [layout_nameless] at hok
    cases hok
  | submenu name entries _ ih =>
    intro level chars rest symbols hok hends hrest
    obtain ⟨name, inside, rfl, hinside, rfl⟩ := layout_submenu_eq_ok.mp hok
    have hhead : IsTokenText "submenu" := hatoms "submenu" (by simp [submenu, submenuHead])
    have hname : IsTokenText name := hatoms name (by simp [submenu])
    have hentries : ∀ entry ∈ entries, ScansAlways entry := fun entry hentry =>
      ih entry hentry fun text htext => hatoms text (mem_atoms_list (by simp [hentry]) htext)
    obtain ⟨hinsideEnd, hinsideScan⟩ :=
      scans_layoutAll (LineParent.submenu.isLead_lead _) hentries hinside (endsWord_closing rest)
        hrest.closing
    have hnameScan := (hinsideScan.atom hname hinsideEnd).gap (c := ' ') rfl
    have hscan := (hnameScan.atom hhead (endsWord_gap rfl _)).opening
    simpa [submenu, submenuHead] using hscan
  | group items hgroup ih =>
    intro level chars rest symbols hok hends hrest
    have hitems : ∀ item ∈ items, ScansAlways item := fun item hitem =>
      ih item hitem fun text htext => hatoms text (mem_atoms_list hitem htext)
    cases items with
    | nil =>
      rw [layout_group_nil] at hok
      cases hok
      simpa using hrest.closing.opening
    | cons item items =>
      obtain ⟨first, others, hfirst, hothers, rfl⟩ := (layout_group_cons_eq_ok hgroup).mp hok
      obtain ⟨hothersEnd, hothersScan⟩ :=
        scans_layoutAll (fun _ => isLead_blank) (fun item h => hitems item (by simp [h])) hothers
          (endsWord_closing rest) hrest.closing
      have hscan := hitems item (by simp) level first _ _ hfirst hothersEnd hothersScan
      simpa using hscan.opening

/-- The text of a tree whose atoms can stand in a document has exactly the tree's symbols. -/
theorem scan_print {node : Node} {text : String} (hprint : node.print = .ok text)
    (hatoms : ∀ text ∈ node.atoms, IsTokenText text) :
    (Token.scan text).tokens.map Token.symbol = node.symbols ∧
      (Token.scan text).openBracket = none := by
  have hscan := scansAlways hatoms 0 text.toList [] [] (print_eq_ok_iff.mp hprint) endsWord_nil .nil
  simpa [Token.scan] using hscan 0

/-- A written tree is read back, without any anomaly. -/
theorem parse_of_print {node : Node} {text : String} (hprint : node.print = .ok text)
    (hatoms : ∀ text ∈ node.atoms, IsTokenText text) (hdepth : node.depth ≤ maxDepth) :
    parse text = ⟨some node, []⟩ := by
  obtain ⟨htokens, hbracket⟩ := scan_print hprint hatoms
  have hread := readRoot_symbols hdepth htokens
  simp [parse, hread, Lexed.anomalies, hbracket, Anomaly.inOrder]

/-- **Reading undoes writing.** A tree within the depth limit, with atoms that can stand in a
document and with atoms for the names of its submenus, is written, and its text is read back as that
tree without any anomaly. -/
theorem exists_print_and_parse_eq {node : Node} (hdepth : node.depth ≤ maxDepth)
    (hatoms : ∀ text ∈ node.atoms, IsTokenText text) (hnames : node.HasAtomNames) :
    ∃ text, node.print = .ok text ∧ parse text = ⟨some node, []⟩ := by
  obtain ⟨chars, hok⟩ := hnames.layout_ok 0
  have hprint : node.print = .ok (String.ofList chars) := by
    rw [Node.print, hok]
    rfl
  exact ⟨_, hprint, parse_of_print hprint hatoms hdepth⟩

/-- Empty lists, a menu in a group, and an atom that holds blanks and parentheses. -/
theorem exists_print_and_parse_eq_nested :
    ∃ text, (menu [submenu (.atom "[a (b\n]") [.list []], .list [.atom "c", menu []]]).print =
        .ok text ∧
      parse text =
        ⟨some (menu [submenu (.atom "[a (b\n]") [.list []], .list [.atom "c", menu []]]), []⟩ := by
  apply exists_print_and_parse_eq
  · decide
  · decide
  · simp [hasAtomNames_list, menu, submenu, menuHead, submenuHead, isSubmenu]

end Menus
