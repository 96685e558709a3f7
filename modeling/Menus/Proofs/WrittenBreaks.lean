import Menus.Proofs.Documents
import Mathlib.Data.List.Chain

/-!
# The line breaks of a reduced text

With carriage returns a document is written so that every line feed has one. Without them no line
feed has one that comes from the writer. But a carriage return that stands alone is an ordinary
character of an atom: it may come before a line feed inside of brackets, and at the end of an atom
it comes before the new line of a list. These are the only two ways to a line break of the other
form.
-/

namespace Menus

/-- No line feed comes after a carriage return. -/
def LfOnly (chars : List Char) : Prop := chars.IsChain fun c next => ¬(c = '\r' ∧ next = '\n')

/-- Every line feed comes after a carriage return. -/
def CrlfOnly (chars : List Char) : Prop :=
  chars.head? ≠ some '\n' ∧ chars.IsChain fun c next => next = '\n' → c = '\r'

instance (chars : List Char) : Decidable (LfOnly chars) :=
  inferInstanceAs (Decidable (List.IsChain _ _))

instance (chars : List Char) : Decidable (CrlfOnly chars) := inferInstanceAs (Decidable (_ ∧ _))

/-- Two texts are free of CRLF together if each is and none arises between them. -/
theorem lfOnly_append {first second : List Char} :
    LfOnly (first ++ second) ↔ LfOnly first ∧ LfOnly second ∧
      ¬(first.getLast? = some '\r' ∧ second.head? = some '\n') := by
  rw [LfOnly, List.isChain_append]
  refine and_congr_right fun _ => and_congr_right fun _ => ⟨?_, ?_⟩
  · rintro h ⟨hlast, hhead⟩
    exact h _ hlast _ hhead ⟨rfl, rfl⟩
  · rintro h c hlast next hhead ⟨rfl, rfl⟩
    exact h ⟨hlast, hhead⟩

/-- A text without CR is free of CRLF. -/
theorem lfOnly_of_not_mem {chars : List Char} (hreturn : '\r' ∉ chars) : LfOnly chars := by
  induction chars with
  | nil => exact .nil
  | cons c chars ih =>
    rw [List.mem_cons, not_or] at hreturn
    exact List.isChain_cons.mpr ⟨fun _ _ h => hreturn.1 h.1.symm, ih hreturn.2⟩

/-- Whatever is written with carriage returns has one before every line feed. -/
theorem crlfOnly_toCrlf (chars : List Char) : CrlfOnly (toCrlf chars) := by
  refine ⟨head?_toCrlf chars, ?_⟩
  induction chars with
  | nil => exact .nil
  | cons c chars ih =>
    have hnext (c : Char) : ∀ next ∈ (toCrlf chars).head?, next = '\n' → c = '\r' := by
      rintro next hhead rfl
      exact absurd hhead (head?_toCrlf chars)
    rw [toCrlf]
    split
    · exact List.isChain_cons_cons.mpr ⟨fun _ => rfl, List.isChain_cons.mpr ⟨hnext _, ih⟩⟩
    · exact List.isChain_cons.mpr ⟨hnext _, ih⟩

/-! ### Carriage returns in a tree -/

namespace Node

/-- An atom with a carriage return as its last character. -/
def EndsInReturn (node : Node) : Prop :=
  node.text?.any (fun text => text.toList.getLast? = some '\r') = true

instance (node : Node) : Decidable node.EndsInReturn := inferInstanceAs (Decidable (_ = true))

/-- No carriage return of an atom comes before a line feed when the tree is written: neither inside
of the atom, nor because a list that starts a line comes after it. -/
def WritesLfOnly (node : Node) : Prop :=
  (∀ text ∈ node.atoms, LfOnly text.toList) ∧
    ∀ inner, node.Contains inner → inner.isMenu ∨ inner.isSubmenu →
      inner.items.IsChain fun item next => ¬(item.EndsInReturn ∧ next.text? = none)

/-- An atom is written as its text. -/
theorem writesLfOnly_atom {text : String} :
    (Node.atom text).WritesLfOnly ↔ LfOnly text.toList := by
  rw [WritesLfOnly, atoms_atom, List.forall_mem_singleton]
  refine and_iff_left fun inner hinner hlines => ?_
  obtain rfl | ⟨item, hitem, -⟩ := hinner.cases_head
  · simp at hlines
  · simp at hitem

/-- A list is looked at by itself and in each of its items. -/
theorem writesLfOnly_list {items : List Node} :
    (Node.list items).WritesLfOnly ↔ (∀ item ∈ items, item.WritesLfOnly) ∧
      ((Node.list items).isMenu ∨ (Node.list items).isSubmenu →
        items.IsChain fun item next => ¬(item.EndsInReturn ∧ next.text? = none)) := by
  constructor
  · rintro ⟨hatoms, hlines⟩
    refine ⟨fun item hitem => ⟨fun text htext => ?_, fun inner hinner => ?_⟩, hlines _ .refl⟩
    · exact hatoms text (mem_atoms_list hitem htext)
    · exact hlines inner (.head hitem hinner)
  · rintro ⟨hitems, hlist⟩
    refine ⟨fun text htext => ?_, fun inner hinner hlines => ?_⟩
    · obtain ⟨item, hitem, htext⟩ := List.mem_flatMap.mp (atoms_list items ▸ htext)
      exact (hitems item hitem).1 text htext
    · obtain rfl | ⟨item, hitem, hinner⟩ := hinner.cases_head
      · exact hlist hlines
      · exact (hitems item hitem).2 inner hinner hlines

/-- A menu is written without CRLF if its entries are and no list follows on a CR. -/
theorem writesLfOnly_menu {entries : List Node} :
    (menu entries).WritesLfOnly ↔ (∀ entry ∈ entries, entry.WritesLfOnly) ∧
      (menuHead :: entries).IsChain fun item next => ¬(item.EndsInReturn ∧ next.text? = none) := by
  have hhead : menuHead.WritesLfOnly := writesLfOnly_atom.mpr (by decide)
  have hlines : (Node.list (menuHead :: entries)).isMenu = true := isMenu_menu entries
  rw [menu, writesLfOnly_list, List.forall_mem_cons]
  simp only [hhead, hlines, true_and, true_or, forall_const]

/-- So is a submenu, with its name in front. -/
theorem writesLfOnly_submenu {name : String} {entries : List Node} :
    (submenu (.atom name) entries).WritesLfOnly ↔
      LfOnly name.toList ∧ (∀ entry ∈ entries, entry.WritesLfOnly) ∧ (.atom name :: entries).IsChain
        fun item next => ¬(item.EndsInReturn ∧ next.text? = none) := by
  have hhead : submenuHead.WritesLfOnly := writesLfOnly_atom.mpr (by decide)
  have hreturn : ¬submenuHead.EndsInReturn := by decide
  have hlines : (Node.list (submenuHead :: .atom name :: entries)).isSubmenu = true :=
    isSubmenu_submenu (.atom name) entries
  rw [submenu, writesLfOnly_list, List.forall_mem_cons, List.forall_mem_cons, writesLfOnly_atom,
    List.isChain_cons_cons]
  simp only [hhead, hreturn, hlines, false_and, not_false_eq_true, true_and, or_true, forall_const,
    and_assoc]

/-- A group is written without CRLF if its items are. -/
theorem writesLfOnly_group {items : List Node} (hgroup : IsGroup items) :
    (Node.list items).WritesLfOnly ↔ ∀ item ∈ items, item.WritesLfOnly := by
  rw [writesLfOnly_list, isMenu_group hgroup, isSubmenu_group hgroup]
  simp

/-! ### What a node is written as -/

/-- What a node is written as starts on the line at hand, ends in a carriage return only if the node
is an atom that does, and shows what becomes of the line breaks. -/
private structure Written (node : Node) (chars : List Char) : Prop where
  ne_nil : chars ≠ []
  head?_ne : chars.head? ≠ some '\n'
  getLast?_iff : chars.getLast? = some '\r' ↔ node.EndsInReturn
  lfOnly_iff : LfOnly chars ↔ node.WritesLfOnly

end Node

/-- The text of a token is not empty and does not start with a line break. -/
theorem IsTokenText.ne_nil {text : String} (h : IsTokenText text) :
    text.toList ≠ [] ∧ text.toList.head? ≠ some '\n' := by
  obtain ⟨hne, hchars⟩ | ⟨inner, hinner, -⟩ := h
  · refine ⟨hne, fun hhead => ?_⟩
    have hbreak := hchars '\n' (List.mem_of_mem_head? hhead)
    revert hbreak
    decide
  · simp [hinner]

/-- There is no CR in a lead. -/
theorem IsLead.not_mem {lead : List Char} (h : IsLead lead) : '\r' ∉ lead := by
  intro hmem
  have hgap := h.2 '\r' hmem
  revert hgap
  decide

/-- A parent puts a line break before a list and no atom. -/
theorem LineParent.head?_lead {parent : LineParent} {level : Nat} {entry : Node} :
    (parent.lead level entry).head? = some '\n' ↔ entry.text? = none := by
  cases entry <;> simp [LineParent.lead, Node.text?]

namespace Node

/-- Of items that are written one after the other after some characters, each one is written by
itself, and it may not start a line after an item that ends in a carriage return. -/
private theorem lfOnly_layoutAll {lead : Node → List Char} (hlead : ∀ item, IsLead (lead item))
    {level : Nat} {items : List Node}
    (hitems : ∀ item ∈ items, ∀ chars, item.layout level = .ok chars → item.Written chars)
    (previous : Node) {before chars : List Char}
    (hbefore : before.getLast? = some '\r' ↔ previous.EndsInReturn)
    (hok : layoutAll lead level items = .ok chars) :
    LfOnly (before ++ chars) ↔ LfOnly before ∧ (∀ item ∈ items, item.WritesLfOnly) ∧
      (previous :: items).IsChain
        fun item next => ¬(item.EndsInReturn ∧ (lead next).head? = some '\n') := by
  induction items generalizing previous before chars with
  | nil =>
    rw [layoutAll] at hok
    cases hok
    simp
  | cons item items ih =>
    obtain ⟨first, others, hfirst, hothers, rfl⟩ := layoutAll_cons_eq_ok.mp hok
    obtain ⟨hwritten, hitems⟩ := List.forall_mem_cons.mp hitems
    replace hwritten := hwritten first hfirst
    have hmiddle : (before ++ lead item ++ first).getLast? = some '\r' ↔ item.EndsInReturn := by
      rw [List.getLast?_append_of_ne_nil _ hwritten.ne_nil, hwritten.getLast?_iff]
    have hlast : (before ++ lead item).getLast? ≠ some '\r' := by
      rw [List.getLast?_append_of_ne_nil _ (hlead item).1]
      exact fun hreturn => (hlead item).not_mem (List.mem_of_getLast? hreturn)
    have hstep : LfOnly (before ++ lead item ++ first) ↔ LfOnly before ∧ item.WritesLfOnly ∧
        ¬(previous.EndsInReturn ∧ (lead item).head? = some '\n') := by
      rw [lfOnly_append, lfOnly_append, hwritten.lfOnly_iff, hbefore]
      simp only [lfOnly_of_not_mem (hlead item).not_mem, hlast, false_and, not_false_eq_true,
        true_and, and_true]
      rw [and_assoc, and_comm (b := item.WritesLfOnly)]
    rw [← List.append_assoc, ← List.append_assoc, ih hitems item hmiddle hothers, hstep,
      List.forall_mem_cons, List.isChain_cons_cons]
    constructor
    · rintro ⟨⟨hlf, hitem, hbreak⟩, hothers, hchain⟩
      exact ⟨hlf, ⟨hitem, hothers⟩, hbreak, hchain⟩
    · rintro ⟨hlf, ⟨hitem, hothers⟩, hbreak, hchain⟩
      exact ⟨⟨hlf, hitem, hbreak⟩, hothers, hchain⟩

/-- What a list is written as starts and ends with its parentheses. -/
theorem exists_layout_list {items : List Node} {level : Nat} {chars : List Char}
    (hok : (Node.list items).layout level = .ok chars) :
    ∃ inside, chars = '(' :: (inside ++ [')']) := by
  obtain ⟨entries, rfl⟩ | rfl | ⟨name, entries, rfl⟩ | hgroup := list_cases items
  · obtain ⟨inside, -, rfl⟩ := layout_menu_eq_ok.mp hok
    exact ⟨"menu".toList ++ inside, by simp⟩
  · rw [layout_nameless] at hok
    cases hok
  · obtain ⟨name, inside, -, -, rfl⟩ := layout_submenu_eq_ok.mp hok
    exact ⟨"submenu".toList ++ (' ' :: (name.toList ++ inside)), by simp⟩
  · cases items with
    | nil =>
      rw [layout_group_nil] at hok
      cases hok
      exact ⟨[], rfl⟩
    | cons item items =>
      obtain ⟨first, others, -, -, rfl⟩ := (layout_group_cons_eq_ok hgroup).mp hok
      exact ⟨first ++ others, by simp⟩

/-- For a list it is enough to look at its line breaks. -/
private theorem written_list {items : List Node} {level : Nat} {chars : List Char}
    (hok : (Node.list items).layout level = .ok chars)
    (h : LfOnly chars ↔ (Node.list items).WritesLfOnly) : (Node.list items).Written chars := by
  obtain ⟨inside, rfl⟩ := exists_layout_list hok
  refine ⟨by simp, by simp, ?_, h⟩
  rw [← List.cons_append, List.getLast?_concat]
  simp [EndsInReturn, text?]

/-- A parenthesis at the end does not matter. -/
private theorem lfOnly_concat_closing {chars : List Char} :
    LfOnly (chars ++ [')']) ↔ LfOnly chars := by
  rw [lfOnly_append]
  simp [LfOnly]

/-- A menu is written as it says if its entries are. -/
private theorem written_menu {entries : List Node} {level : Nat} {chars : List Char}
    (hentries : ∀ entry ∈ entries, ∀ chars, entry.layout (level + 1) = .ok chars →
      entry.Written chars) (hok : (menu entries).layout level = .ok chars) :
    (menu entries).Written chars := by
  refine written_list hok ?_
  obtain ⟨inside, hinside, rfl⟩ := layout_menu_eq_ok.mp hok
  have hchars : '(' :: ("menu".toList ++ (inside ++ [')'])) =
      '(' :: "menu".toList ++ inside ++ [')'] := by simp
  rw [hchars, lfOnly_concat_closing, lfOnly_layoutAll (LineParent.menu.isLead_lead (level + 1))
    hentries menuHead (by decide) hinside, and_iff_right (by decide)]
  simp only [LineParent.head?_lead]
  exact writesLfOnly_menu.symm

/-- So is a submenu. -/
private theorem written_submenu {name : String} {entries : List Node} {level : Nat}
    {chars : List Char} (hname : IsTokenText name)
    (hentries : ∀ entry ∈ entries, ∀ chars, entry.layout (level + 1) = .ok chars →
      entry.Written chars) (hok : (submenu (.atom name) entries).layout level = .ok chars) :
    (submenu (.atom name) entries).Written chars := by
  refine written_list hok ?_
  obtain ⟨_, inside, ⟨⟩, hinside, rfl⟩ := layout_submenu_eq_ok.mp hok
  have hchars : '(' :: ("submenu".toList ++ (' ' :: (name.toList ++ (inside ++ [')'])))) =
      '(' :: "submenu".toList ++ [' '] ++ name.toList ++ inside ++ [')'] := by simp
  have hlast : ('(' :: "submenu".toList ++ [' '] ++ name.toList).getLast? = some '\r' ↔
      (Node.atom name).EndsInReturn := by
    rw [List.getLast?_append_of_ne_nil _ hname.ne_nil.1]
    simp [EndsInReturn, text?]
  have hbefore : LfOnly ('(' :: "submenu".toList ++ [' '] ++ name.toList) ↔ LfOnly name.toList := by
    rw [lfOnly_append, and_iff_right (by decide)]
    exact and_iff_left (by simp)
  rw [hchars, lfOnly_concat_closing, lfOnly_layoutAll
    (LineParent.submenu.isLead_lead (level + 1)) hentries (.atom name) hlast hinside, hbefore]
  simp only [LineParent.head?_lead]
  exact writesLfOnly_submenu.symm

/-- So is a group. Its members stay on one line, so there is nothing to look at between them. -/
private theorem written_group {items : List Node} (hgroup : IsGroup items) {level : Nat}
    {chars : List Char}
    (hitems : ∀ item ∈ items, ∀ chars, item.layout level = .ok chars → item.Written chars)
    (hok : (Node.list items).layout level = .ok chars) : (Node.list items).Written chars := by
  refine written_list hok ?_
  rw [writesLfOnly_group hgroup]
  cases items with
  | nil =>
    rw [layout_group_nil] at hok
    cases hok
    simp [LfOnly]
  | cons item items =>
    obtain ⟨first, others, hfirst, hothers, rfl⟩ := (layout_group_cons_eq_ok hgroup).mp hok
    rw [List.forall_mem_cons] at hitems ⊢
    have hwritten := hitems.1 first hfirst
    have hchars : '(' :: (first ++ (others ++ [')'])) = ['('] ++ first ++ others ++ [')'] := by simp
    have hlast : (['('] ++ first).getLast? = some '\r' ↔ item.EndsInReturn := by
      rw [List.getLast?_append_of_ne_nil _ hwritten.ne_nil, hwritten.getLast?_iff]
    have hbefore : LfOnly (['('] ++ first) ↔ item.WritesLfOnly := by
      rw [lfOnly_append, and_iff_right (by decide), hwritten.lfOnly_iff]
      exact and_iff_left (by simp)
    have hchain : (item :: items).IsChain
        fun item _ => ¬(item.EndsInReturn ∧ [' '].head? = some '\n') :=
      List.isChain_iff_forall_rel_of_append_cons_cons.mpr (by simp)
    rw [hchars, lfOnly_concat_closing,
      lfOnly_layoutAll (fun _ => isLead_blank) hitems.2 item hlast hothers, hbefore]
    exact and_congr_right fun _ => and_iff_left hchain

/-- The text of a tree whose atoms can stand in a document. -/
private theorem written_of_layout {node : Node} (hatoms : ∀ text ∈ node.atoms, IsTokenText text) :
    ∀ level chars, node.layout level = .ok chars → node.Written chars := by
  induction node using byShape with
  | atom text =>
    intro level chars hok
    rw [layout_atom] at hok
    cases hok
    obtain ⟨hne, hhead⟩ := IsTokenText.ne_nil (hatoms text (by simp))
    exact ⟨hne, hhead, by simp [EndsInReturn, text?], writesLfOnly_atom.symm⟩
  | menu entries ih =>
    intro level chars
    exact written_menu fun entry hentry => ih entry hentry
      (fun text htext => hatoms text (mem_atoms_list (by simp [hentry]) htext)) _
  | nameless =>
    intro level chars hok
    rw [layout_nameless] at hok
    cases hok
  | submenu name entries _ ih =>
    intro level chars hok
    obtain ⟨name, -, rfl, -, -⟩ := layout_submenu_eq_ok.mp hok
    refine written_submenu (hatoms name (by simp [submenu])) (fun entry hentry => ?_) hok
    exact ih entry hentry
      (fun text htext => hatoms text (mem_atoms_list (by simp [hentry]) htext)) _
  | group items hgroup ih =>
    intro level chars
    exact written_group hgroup fun item hitem => ih item hitem
      (fun text htext => hatoms text (mem_atoms_list hitem htext)) _

/-- The text of a tree whose atoms can stand in a document has no other line breaks than line feeds
exactly if no carriage return of an atom comes before one. -/
theorem lfOnly_print_iff {node : Node} {text : String} (hprint : node.print = .ok text)
    (hatoms : ∀ text ∈ node.atoms, IsTokenText text) : LfOnly text.toList ↔ node.WritesLfOnly :=
  (written_of_layout hatoms 0 text.toList (print_eq_ok_iff.mp hprint)).lfOnly_iff

end Node

/-- **The line breaks of a reduced text.** When they are to have carriage returns, every one has.
When they are not, none has, unless one comes from a carriage return that stands alone in the
document: inside of an atom that is kept, or at the end of one that a list comes after. -/
theorem lineBreaks_of_reduceDocument {text out : String} {ending : LineEnding}
    (hok : reduceDocument text ending = .ok out) :
    (ending = .crlf ∨ ending = .auto ∧ StartsCrlf text.toList → CrlfOnly out.toList) ∧
      (ending = .lf ∨ ending = .auto ∧ ¬StartsCrlf text.toList →
        (LfOnly out.toList ↔ (reduce (parseDocument text).root).WritesLfOnly)) ∧
      ('\r' ∉ toLf text.toList → (reduce (parseDocument text).root).WritesLfOnly) := by
  obtain ⟨-, -, written, hprint, rfl⟩ := reduceDocument_eq_ok_iff.mp hok
  have hiff := Node.lfOnly_print_iff hprint fun atom => isTokenText_of_mem_atoms_reduce
  refine ⟨fun hcrlf => ?_, fun hlf => ?_, fun hreturn => ?_⟩
  · have huses : ending.usesCrlf text = true := by
      rw [LineEnding.usesCrlf_eq]
      rcases hcrlf with rfl | ⟨rfl, hstarts⟩
      · rfl
      · exact firstBreakIsCrlf_iff.mpr hstarts
    rw [huses, toList_withLineBreaks, if_pos rfl]
    exact crlfOnly_toCrlf _
  · have huses : ending.usesCrlf text = false := by
      rw [LineEnding.usesCrlf_eq]
      rcases hlf with rfl | ⟨rfl, hstarts⟩
      · rfl
      · rw [LineEnding.next, ← Bool.not_eq_true, firstBreakIsCrlf_iff]
        exact hstarts
    rw [huses, toList_withLineBreaks, if_neg (by decide)]
    exact hiff
  · have hreduced := reducedText_of_print (by rwa [String.toList_ofList]) hprint
    exact hiff.mp (lfOnly_of_not_mem hreduced.noReturn)

/-- A carriage return that stands alone in brackets comes before no line feed. -/
theorem lineBreaks_of_reduceDocument_return_in_brackets :
    reduceDocument "(menu [snippet.a\r] (snippet.b ---))" .lf =
        .ok "(menu [snippet.a\r]\n    (snippet.b))" ∧
      (LfOnly "(menu [snippet.a\r]\n    (snippet.b))".toList ↔
        (reduce (parseDocument "(menu [snippet.a\r] (snippet.b ---))").root).WritesLfOnly) := by
  have hok : reduceDocument "(menu [snippet.a\r] (snippet.b ---))" .lf =
      .ok "(menu [snippet.a\r]\n    (snippet.b))" := by decide +kernel
  exact ⟨hok, (lineBreaks_of_reduceDocument hok).2.1 (Or.inl rfl)⟩

/-- A carriage return at the end of an atom makes a line break of the other form with the new line
of the list after it. -/
theorem not_lfOnly_return_before_list :
    reduceDocument "(menu snippet.a\r(snippet.b))" .lf = .ok "(menu snippet.a\r\n    (snippet.b))" ∧
      ¬LfOnly "(menu snippet.a\r\n    (snippet.b))".toList :=
  ⟨by decide +kernel, by decide⟩

end Menus
