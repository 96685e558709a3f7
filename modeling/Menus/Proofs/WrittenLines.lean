import Menus.Proofs.Anomalies
import Menus.Proofs.WrittenBreaks

/-!
# The lines of a written tree

A written tree is a text of parentheses and atoms with as few gaps as possible: a single blank
before an atom or before a member of a group, and a line feed with a margin before a list that
starts a line. An atom may have any gaps inside of brackets, so line feeds are looked at outside of
them only. A text is put together from its end: whatever a part of it is followed by has lines of
this kind, and so has the part with what follows it.
-/

namespace Menus

/-! ### Line feeds outside of brackets -/

/-- The number of line feeds outside of brackets. The characters start inside of brackets or not. -/
def lineFeeds : Bool → List Char → Nat
  | _, [] => 0
  | inside, c :: chars =>
    (if c = '\n' ∧ inside = false then 1 else 0) + lineFeeds (insideAfter inside c) chars

/-- Every line feed outside of brackets comes after a character that is no gap, unless it is the
first character, and before a margin of four columns or a multiple of that, with a list after it. -/
def StartsLines (chars : List Char) : Prop :=
  ∀ before after, chars = before ++ '\n' :: after → before.foldl insideAfter false = false →
    (before ≠ [] → ∃ c, before.getLast? = some c ∧ Token.isGap c = false) ∧
      ∃ steps rest, 0 < steps ∧ after = List.replicate (4 * steps) ' ' ++ '(' :: rest

/-- The line breaks of two texts add up, and a bracket may reach into the second. -/
theorem lineFeeds_append (inside : Bool) (first second : List Char) :
    lineFeeds inside (first ++ second) =
      lineFeeds inside first + lineFeeds (first.foldl insideAfter inside) second := by
  induction first generalizing inside with
  | nil => simp [lineFeeds]
  | cons c first ih => simp [lineFeeds, ih, Nat.add_assoc]

/-- Characters that are outside of brackets at both ends, and outside of them have no line feed. -/
structure IsInline (chars : List Char) : Prop where
  closed : chars.foldl insideAfter false = false
  lineFeeds_eq : lineFeeds false chars = 0

/-- A place in two texts, one after the other, is in one of them. -/
private theorem append_eq_append_cons {first second before after : List Char} {c : Char}
    (h : first ++ second = before ++ c :: after) :
    (∃ inside, first = before ++ c :: inside) ∨
      ∃ between, before = first ++ between ∧ second = between ++ c :: after := by
  obtain ⟨between, hbefore, hsecond⟩ | ⟨inside, hfirst, hinside⟩ := List.append_eq_append_iff.mp h
  · exact Or.inr ⟨between, hbefore, hsecond⟩
  · cases inside with
    | nil => exact Or.inr ⟨[], by simpa using hfirst.symm, hinside.symm⟩
    | cons d inside =>
      obtain ⟨rfl, -⟩ := List.cons.inj hinside
      exact Or.inl ⟨inside, hfirst⟩

namespace IsInline

/-- No line feed outside of brackets is among such characters. -/
theorem not_outside {chars before inside : List Char} (h : IsInline chars)
    (hchars : chars = before ++ '\n' :: inside) : ¬before.foldl insideAfter false = false := by
  intro houtside
  have hfeeds := h.lineFeeds_eq
  simp only [hchars, lineFeeds_append, houtside, lineFeeds, and_self, if_true] at hfeeds
  omega

/-- Characters of a word, parentheses and blanks. -/
theorem of_forall {chars : List Char} (h : ∀ c ∈ chars, c ≠ '[' ∧ c ≠ '\n') : IsInline chars := by
  induction chars with
  | nil => exact ⟨rfl, rfl⟩
  | cons c chars ih =>
    obtain ⟨⟨hbracket, hfeed⟩, hchars⟩ := List.forall_mem_cons.mp h
    have hc : insideAfter false c = false := by simp [insideAfter, hbracket]
    obtain ⟨hclosed, hfeeds⟩ := ih hchars
    exact ⟨by rw [List.foldl_cons, hc, hclosed], by simp [lineFeeds, hfeed, hc, hfeeds]⟩

/-- Inside a bracket no line break counts. -/
private theorem of_inner {inner : List Char} (hinner : ']' ∉ inner) :
    inner.foldl insideAfter true = true ∧ lineFeeds true inner = 0 := by
  induction inner with
  | nil => exact ⟨rfl, rfl⟩
  | cons c inner ih =>
    rw [List.mem_cons, not_or] at hinner
    have hc : insideAfter true c = true := by simp [insideAfter, Ne.symm hinner.1]
    obtain ⟨hopen, hfeeds⟩ := ih hinner.2
    exact ⟨by rw [List.foldl_cons, hc, hopen], by simp [lineFeeds, hc, hfeeds]⟩

/-- No line break counts in the text of a token. -/
theorem of_isTokenText {text : String} (h : IsTokenText text) : IsInline text.toList := by
  obtain ⟨-, hword⟩ | ⟨inner, hchars, hinner⟩ := h
  · refine of_forall fun c hc => ?_
    obtain ⟨hgap, -, -, hbracket⟩ := Token.isWordChar_iff.mp (hword c hc)
    refine ⟨hbracket, ?_⟩
    rintro rfl
    cases hgap
  · obtain ⟨hopen, hfeeds⟩ := of_inner hinner
    rw [hchars]
    refine ⟨?_, ?_⟩
    · simp [insideAfter, hopen]
    · simp [lineFeeds, lineFeeds_append, insideAfter, hopen, hfeeds]

/-- Text without line breaks that count can go from the front. -/
theorem lineFeeds_append {first : List Char} (h : IsInline first) (second : List Char) :
    lineFeeds false (first ++ second) = lineFeeds false second := by
  rw [Menus.lineFeeds_append, h.lineFeeds_eq, h.closed, Nat.zero_add]

/-- The lines after such characters are started as before, if these end in no gap or a line does not
start at once. -/
theorem startsLines_append {first second : List Char} (h : IsInline first)
    (hbetween : (∃ c, first.getLast? = some c ∧ Token.isGap c = false) ∨
      second.head? ≠ some '\n') (hsecond : StartsLines second) : StartsLines (first ++ second) := by
  intro before after hsplit houtside
  obtain ⟨inside, hfirst⟩ | ⟨between, rfl, rfl⟩ := append_eq_append_cons hsplit
  · exact absurd houtside (h.not_outside hfirst)
  · rw [List.foldl_append, h.closed] at houtside
    obtain ⟨hlast, hafter⟩ := hsecond between after rfl houtside
    refine ⟨fun _ => ?_, hafter⟩
    by_cases hnone : between = []
    · subst hnone
      rw [List.append_nil]
      exact hbetween.resolve_right (not_not_intro rfl)
    · rw [List.getLast?_append_of_ne_nil _ hnone]
      exact hlast hnone

end IsInline

/-! ### What a part of a text is followed by -/

/-- Characters that start a number of lines and do not end with a gap. -/
structure Laid (count : Nat) (chars : List Char) : Prop where
  starts : StartsLines chars
  count_eq : lineFeeds false chars = count
  last : ∀ c ∈ chars.getLast?, Token.isGap c = false

namespace Laid

variable {count : Nat} {chars : List Char}

/-- The empty text is laid out without lines. -/
theorem nil : Laid 0 [] := ⟨by simp [StartsLines], rfl, by simp⟩

/-- Characters of one line, with others after them. -/
private theorem append {first : List Char} (hinline : IsInline first) (h : Laid count chars)
    (hbetween : (∃ c, first.getLast? = some c ∧ Token.isGap c = false) ∨
      ∃ c, chars.head? = some c ∧ Token.isGap c = false) : Laid count (first ++ chars) where
  starts := by
    refine hinline.startsLines_append (hbetween.imp_right ?_) h.starts
    rintro ⟨c, hc, hgap⟩ hfeed
    rw [hc] at hfeed
    cases hfeed
    cases hgap
  count_eq := by rw [hinline.lineFeeds_append, h.count_eq]
  last := by
    by_cases hnone : chars = []
    · subst hnone
      obtain ⟨c, hc, hgap⟩ | ⟨c, hc, -⟩ := hbetween
      · simpa [hc] using hgap
      · cases hc
    · rw [List.getLast?_append_of_ne_nil _ hnone]
      exact h.last

/-- A parenthesis in front adds no line. -/
theorem parenthesis {c : Char} (hc : c = '(' ∨ c = ')') (h : Laid count chars) :
    Laid count (c :: chars) := by
  have hinline : IsInline [c] := .of_forall (by rcases hc with rfl | rfl <;> simp)
  exact append hinline h (Or.inl ⟨c, rfl, by rcases hc with rfl | rfl <;> decide⟩)

/-- Nor does an atom. -/
theorem atom {text : String} (htext : IsTokenText text) (h : Laid count chars) :
    Laid count (text.toList ++ chars) := by
  refine append (.of_isTokenText htext) h (Or.inl ?_)
  obtain ⟨hne, hword⟩ | ⟨inner, hinner, -⟩ := htext
  · have hlast := List.getLast?_eq_some_getLast hne
    have hchar := hword _ (List.mem_of_getLast? hlast)
    exact ⟨_, hlast, (Token.isWordChar_iff.mp hchar).1⟩
  · exact ⟨']', by rw [hinner, List.getLast?_concat], rfl⟩

/-- Nor does a space before something that is no gap. -/
theorem blank (h : Laid count chars) (hchars : ∃ c, chars.head? = some c ∧ Token.isGap c = false) :
    Laid count (' ' :: chars) := by
  have hinline : IsInline [' '] := .of_forall (by simp)
  exact append hinline h (Or.inr hchars)

/-- A list after a line feed and a margin starts one more line. -/
theorem line {steps : Nat} (hsteps : 0 < steps) (h : Laid count ('(' :: chars)) :
    Laid (1 + count) ('\n' :: (List.replicate (4 * steps) ' ' ++ '(' :: chars)) := by
  have hmargin : IsInline (List.replicate (4 * steps) ' ') :=
    .of_forall fun c hc => by simp [List.eq_of_mem_replicate hc]
  have hlist : Laid count (List.replicate (4 * steps) ' ' ++ '(' :: chars) :=
    append hmargin h (Or.inr ⟨'(', rfl, rfl⟩)
  refine ⟨fun before after hsplit houtside => ?_, ?_, ?_⟩
  · cases before with
    | nil =>
      obtain ⟨-, rfl⟩ := List.cons.inj hsplit
      exact ⟨by simp, steps, chars, hsteps, rfl⟩
    | cons c before =>
      obtain ⟨rfl, hrest⟩ := List.cons.inj hsplit
      obtain ⟨hlast, hafter⟩ := hlist.starts before after hrest houtside
      refine ⟨fun _ => ?_, hafter⟩
      have hne : before ≠ [] := by
        rintro rfl
        obtain ⟨width, hwidth⟩ := Nat.exists_eq_add_of_lt hsteps
        simp [hwidth, Nat.mul_add, List.replicate_succ] at hrest
      obtain ⟨d, hd, hgap⟩ := hlast hne
      exact ⟨d, by rw [List.getLast?_cons, hd]; rfl, hgap⟩
  · simp [lineFeeds, insideAfter, hlist.count_eq]
  · intro c hc
    rw [← List.singleton_append, List.getLast?_append_of_ne_nil _ (by simp)] at hc
    exact hlist.last c hc

end Laid

/-! ### Lists that start lines -/

namespace Node

/-- A node that is no atom. -/
def isList (node : Node) : Bool := node.text?.isNone

/-- The number of lists among the entries of a menu or a submenu. -/
def listEntries (node : Node) : Nat :=
  if node.isMenu || node.isSubmenu then node.entries.countP isList else 0

mutual

/-- The number of lists in a tree that are entries of a menu or of a submenu. -/
def lineLists : Node → Nat
  | .atom _ => 0
  | .list items => (Node.list items).listEntries + lineListsOfAll items

/-- The number of such lists in some items. -/
def lineListsOfAll : List Node → Nat
  | [] => 0
  | item :: items => item.lineLists + lineListsOfAll items

end

/-- An atom starts no lines. -/
@[simp] theorem lineLists_atom (text : String) : (Node.atom text).lineLists = 0 := by
  rw [lineLists]

/-- A menu has a line for each list among its entries and those inside of them. -/
theorem lineLists_menu (entries : List Node) :
    (menu entries).lineLists = entries.countP isList + lineListsOfAll entries := by
  have hlist : (Node.list (menuHead :: entries)).listEntries = entries.countP isList := by
    rw [← menu, listEntries, isMenu_menu, entries_menu]
    rfl
  rw [menu, lineLists, hlist, lineListsOfAll, menuHead, lineLists_atom, Nat.zero_add]

/-- So has a submenu. -/
theorem lineLists_submenu (name : String) (entries : List Node) :
    (submenu (.atom name) entries).lineLists =
      entries.countP isList + lineListsOfAll entries := by
  have hlist : (Node.list (submenuHead :: .atom name :: entries)).listEntries =
      entries.countP isList := by
    rw [← submenu, listEntries, isSubmenu_submenu, entries_submenu, Bool.or_true]
    rfl
  rw [submenu, lineLists, hlist, lineListsOfAll, lineListsOfAll, submenuHead, lineLists_atom,
    lineLists_atom, Nat.zero_add, Nat.zero_add]

/-- A group has only the lines inside of its items. -/
theorem lineLists_group {items : List Node} (hgroup : IsGroup items) :
    (Node.list items).lineLists = lineListsOfAll items := by
  rw [lineLists, listEntries, isMenu_group hgroup, isSubmenu_group hgroup]
  exact Nat.zero_add _

/-! ### Writing a tree -/

/-- Whatever starts some lines still does with the node's text before it, at every level. -/
private def LaysLines (node : Node) : Prop :=
  ∀ level chars rest count, node.layout level = .ok chars → Laid count rest →
    Laid (node.lineLists + count) (chars ++ rest)

/-- What a node is written as starts with a character that is no gap, and a list with its
parenthesis. -/
private theorem exists_layout_cons {node : Node} (hatoms : ∀ text ∈ node.atoms, IsTokenText text)
    {level : Nat} {chars : List Char} (hok : node.layout level = .ok chars) :
    ∃ c rest, chars = c :: rest ∧ Token.isGap c = false ∧ (node.isList = true → c = '(') := by
  cases node with
  | list items =>
    obtain ⟨inside, rfl⟩ := exists_layout_list hok
    exact ⟨'(', _, rfl, rfl, fun _ => rfl⟩
  | atom text =>
    rw [layout_atom] at hok
    cases hok
    obtain ⟨hne, hword⟩ | ⟨inner, hinner, -⟩ := hatoms text (by simp)
    · obtain ⟨c, rest, hchars⟩ := List.exists_cons_of_ne_nil hne
      have hgap := (Token.isWordChar_iff.mp (hword c (by simp [hchars]))).1
      exact ⟨c, rest, hchars, hgap, by simp [isList, text?]⟩
    · exact ⟨'[', _, hinner, rfl, by simp [isList, text?]⟩

/-- An entry comes after a blank, or it starts a line. -/
private theorem laid_lead (parent : LineParent) {level : Nat} (hlevel : 0 < level) {entry : Node}
    {c : Char} {chars : List Char} (hgap : Token.isGap c = false)
    (hc : entry.isList = true → c = '(') {count : Nat} (h : Laid count (c :: chars)) :
    Laid ((if entry.isList then 1 else 0) + count) (parent.lead level entry ++ c :: chars) := by
  cases entry with
  | atom text =>
    rw [isList, text?, Option.isNone_some, if_neg (by simp), Nat.zero_add]
    exact h.blank ⟨c, rfl, hgap⟩
  | list items =>
    obtain rfl := hc rfl
    rw [isList, text?, Option.isNone_none, if_pos rfl, LineParent.lead, LineParent.margin,
      List.cons_append]
    refine Laid.line ?_ h
    split <;> omega

/-- Items are written one after the other. Each one starts the lines of its own text, and one more
if it does not stay on the line it comes on. -/
private theorem laid_layoutAll {lead : Node → List Char} {starts : Node → Bool}
    (hlead : ∀ item c chars count, Token.isGap c = false → (item.isList = true → c = '(') →
      Laid count (c :: chars) →
        Laid ((if starts item then 1 else 0) + count) (lead item ++ c :: chars))
    {level : Nat} {items : List Node}
    (hatoms : ∀ item ∈ items, ∀ text ∈ item.atoms, IsTokenText text)
    (hitems : ∀ item ∈ items, LaysLines item) {chars rest : List Char} {count : Nat}
    (hok : layoutAll lead level items = .ok chars) (hrest : Laid count rest) :
    Laid (items.countP starts + lineListsOfAll items + count) (chars ++ rest) := by
  induction items generalizing chars with
  | nil =>
    rw [layoutAll] at hok
    cases hok
    simpa [lineListsOfAll] using hrest
  | cons item items ih =>
    obtain ⟨first, others, hfirst, hothers, rfl⟩ := layoutAll_cons_eq_ok.mp hok
    rw [List.forall_mem_cons] at hatoms hitems
    have hlaid := hitems.1 level first _ _ hfirst (ih hatoms.2 hitems.2 hothers)
    obtain ⟨c, inside, rfl, hgap, hc⟩ := exists_layout_cons hatoms.1 hfirst
    have hled := hlead item c (inside ++ (others ++ rest)) _ hgap hc hlaid
    convert hled using 1
    · rw [List.countP_cons, lineListsOfAll]
      omega
    · simp

/-- A tree whose atoms can stand in a document starts a line for each list that is an entry of a
menu or of a submenu, and no others. Members of a group stay on its line, so that nothing but their
own lists starts lines. -/
private theorem laysLines {node : Node} (hatoms : ∀ text ∈ node.atoms, IsTokenText text) :
    LaysLines node := by
  induction node using byShape with
  | atom text =>
    intro level chars rest count hok hrest
    rw [layout_atom] at hok
    cases hok
    rw [lineLists_atom, Nat.zero_add]
    exact hrest.atom (hatoms text (by simp))
  | menu entries ih =>
    intro level chars rest count hok hrest
    obtain ⟨inside, hinside, rfl⟩ := layout_menu_eq_ok.mp hok
    have hentries : ∀ entry ∈ entries, ∀ text ∈ entry.atoms, IsTokenText text :=
      fun entry hentry text htext => hatoms text (mem_atoms_list (by simp [hentry]) htext)
    have hlaid := laid_layoutAll
      (fun _ _ _ _ hgap hc => laid_lead .menu (Nat.succ_pos level) hgap hc) hentries
      (fun entry hentry => ih entry hentry (hentries entry hentry)) hinside
      (hrest.parenthesis (Or.inr rfl))
    rw [← lineLists_menu] at hlaid
    have hhead : IsTokenText "menu" := hatoms "menu" (by simp [menu, menuHead])
    simpa using (hlaid.atom hhead).parenthesis (Or.inl rfl)
  | nameless =>
    intro level chars rest count hok
    rw [layout_nameless] at hok
    cases hok
  | submenu name entries _ ih =>
    intro level chars rest count hok hrest
    obtain ⟨name, inside, rfl, hinside, rfl⟩ := layout_submenu_eq_ok.mp hok
    have hentries : ∀ entry ∈ entries, ∀ text ∈ entry.atoms, IsTokenText text :=
      fun entry hentry text htext => hatoms text (mem_atoms_list (by simp [hentry]) htext)
    have hlaid := laid_layoutAll
      (fun _ _ _ _ hgap hc => laid_lead .submenu (Nat.succ_pos level) hgap hc) hentries
      (fun entry hentry => ih entry hentry (hentries entry hentry)) hinside
      (hrest.parenthesis (Or.inr rfl))
    rw [← lineLists_submenu name] at hlaid
    have hname : IsTokenText name := hatoms name (by simp [submenu])
    have hhead : IsTokenText "submenu" := hatoms "submenu" (by simp [submenu, submenuHead])
    have hlabel : ∀ text ∈ (Node.atom name).atoms, IsTokenText text := by simpa using hname
    obtain ⟨c, others, hchars, hgap, -⟩ := exists_layout_cons hlabel (layout_atom level name)
    have hblank := (hlaid.atom hname).blank ⟨c, by simp [hchars], hgap⟩
    simpa using (hblank.atom hhead).parenthesis (Or.inl rfl)
  | group items hgroup ih =>
    intro level chars rest count hok hrest
    have hitems : ∀ item ∈ items, ∀ text ∈ item.atoms, IsTokenText text :=
      fun item hitem text htext => hatoms text (mem_atoms_list hitem htext)
    rw [lineLists_group hgroup]
    cases items with
    | nil =>
      rw [layout_group_nil] at hok
      cases hok
      simpa [lineListsOfAll] using (hrest.parenthesis (Or.inr rfl)).parenthesis (Or.inl rfl)
    | cons item items =>
      obtain ⟨first, others, hfirst, hothers, rfl⟩ := (layout_group_cons_eq_ok hgroup).mp hok
      rw [List.forall_mem_cons] at hitems
      have hblank : ∀ (item : Node) (c : Char) (chars : List Char) (count : Nat),
          Token.isGap c = false → (item.isList = true → c = '(') → Laid count (c :: chars) →
            Laid ((if false then 1 else 0) + count) ([' '] ++ c :: chars) :=
        fun _ c _ _ hgap _ h => by simpa using h.blank ⟨c, rfl, hgap⟩
      have hlaid := laid_layoutAll hblank hitems.2
        (fun item hitem => ih item (by simp [hitem]) (hitems.2 item hitem)) hothers
        (hrest.parenthesis (Or.inr rfl))
      have hall := (ih item (by simp) hitems.1 level first _ _ hfirst hlaid).parenthesis
        (Or.inl rfl)
      simpa [lineListsOfAll, Nat.add_assoc] using hall

end Node

/-- A text that starts some lines in the regular way, and has no gaps at its ends. -/
structure CleanLayout (chars : List Char) (lines : Nat) : Prop where
  /-- The first character is no gap. -/
  first : ∃ c, chars.head? = some c ∧ Token.isGap c = false
  /-- The last character is no gap. -/
  last : ∃ c, chars.getLast? = some c ∧ Token.isGap c = false
  /-- A line feed outside of brackets comes after a character that is no gap, and before a margin of
  four columns or a multiple of that, with a list after it. -/
  starts : ∀ before after, chars = before ++ '\n' :: after →
    before.foldl insideAfter false = false →
    (∃ c, before.getLast? = some c ∧ Token.isGap c = false) ∧
      ∃ steps rest, 0 < steps ∧ after = List.replicate (4 * steps) ' ' ++ '(' :: rest
  /-- So many line feeds are outside of brackets. -/
  count_eq : lineFeeds false chars = lines

/-- A tree whose atoms can stand in a document is laid out cleanly. -/
theorem Node.cleanLayout_of_print {node : Node} {text : String} (hprint : node.print = .ok text)
    (hatoms : ∀ text ∈ node.atoms, IsTokenText text) : CleanLayout text.toList node.lineLists := by
  have hok := print_eq_ok_iff.mp hprint
  have hlaid : Laid node.lineLists text.toList := by
    simpa using laysLines hatoms 0 text.toList [] 0 hok .nil
  obtain ⟨c, inside, hchars, hgap, -⟩ := exists_layout_cons hatoms hok
  rw [hchars] at hlaid ⊢
  refine ⟨⟨c, rfl, hgap⟩, ?_, fun before after hsplit houtside => ?_, hlaid.count_eq⟩
  · have hlast := List.getLast?_eq_some_getLast (List.cons_ne_nil c inside)
    exact ⟨_, hlast, hlaid.last _ hlast⟩
  · obtain ⟨hbefore, hafter⟩ := hlaid.starts before after hsplit houtside
    refine ⟨hbefore ?_, hafter⟩
    rintro rfl
    obtain ⟨rfl, -⟩ := List.cons.inj hsplit
    cases hgap

/-- **The layout of a reduced text is clean.** When the reduced tree of a document is written, the
text neither starts nor ends with a gap. Every line feed outside of brackets comes right after what
stands on its line, and before the margin of a list, which is four columns wide or a multiple of
that. There are as many of them as there are lists in the tree that are entries of a menu or a
submenu. -/
theorem cleanLayout_of_print_reduce {text written : String}
    (hprint : (reduce (parseDocument text).root).print = .ok written) :
    CleanLayout written.toList (reduce (parseDocument text).root).lineLists :=
  Node.cleanLayout_of_print hprint fun _ => isTokenText_of_mem_atoms_reduce

/-- A name with a line feed in its brackets, a submenu in a submenu, and one in a group. -/
theorem cleanLayout_of_print_reduce_nested :
    let text := "(menu snippet.a (submenu [A\n(] snippet.b (submenu B snippet.c --- snippet.d))" ++
      "(snippet.e (submenu C snippet.f (snippet.g action.h))))"
    let written := "(menu snippet.a\n        (submenu [A\n(] snippet.b\n        " ++
      "(submenu B snippet.c --- snippet.d))\n    (snippet.e (submenu C snippet.f\n        " ++
      "(snippet.g))))"
    (reduce (parseDocument text).root).print = .ok written ∧
      (reduce (parseDocument text).root).lineLists = 4 ∧ CleanLayout written.toList 4 := by
  intro text written
  have hroot : reduce (parseDocument text).root = .list [.atom "menu", .atom "snippet.a",
      .list [.atom "submenu", .atom "[A\n(]", .atom "snippet.b",
        .list [.atom "submenu", .atom "B", .atom "snippet.c", .separator, .atom "snippet.d"]],
      .list [.atom "snippet.e", .list [.atom "submenu", .atom "C", .atom "snippet.f",
        .list [.atom "snippet.g"]]]] := by
    decide +kernel
  have hprint : (reduce (parseDocument text).root).print = .ok written := by
    rw [hroot]
    decide +kernel
  have hlines : (reduce (parseDocument text).root).lineLists = 4 := by
    rw [hroot]
    decide +kernel
  exact ⟨hprint, hlines, hlines ▸ cleanLayout_of_print_reduce hprint⟩

end Menus
