import Menus.Proofs.Documents
import Menus.Proofs.Names
import Menus.Proofs.Nesting

/-!
# When a document is not reduced

There are three reasons for giving no text, and they are looked for one after the other: nothing can
be seen in the document, one of its lists is opened too deep, or the reduced tree has no written
form. The first two can be told from the document without building its tree, and the last one always
comes from a list where the name of a submenu should be.
-/

namespace Menus

/-- Something in a text can be seen. -/
def Visible (text : String) : Prop := ∃ c ∈ text.toList, isBlank c = false

/-- A list of the first node of a document is opened at the given byte while as many lists are open
as the depth limit allows. Bytes are counted after every line break has become a line feed. -/
def OpensTooDeep (text : String) (offset : Nat) : Prop :=
  OpensAt 0 maxDepth offset (Token.scan (String.ofList (toLf text.toList))).tokens

/-- No list of the first node of a document is opened too deep. -/
def Shallow (text : String) : Prop := ∀ offset, ¬OpensTooDeep text offset

/-- What becomes of a document, and what about the document is the reason. -/
inductive DocumentOutcome (text : String) (ending : LineEnding) : Except DocumentError String → Prop
  /-- Nothing can be seen. -/
  | empty (hblank : ∀ c ∈ text.toList, isBlank c = true) :
      DocumentOutcome text ending (.error .empty)
  /-- Of the lists that are opened too deep, this is the first one. -/
  | tooDeep {offset : Nat} (hvisible : Visible text) (hdeep : OpensTooDeep text offset)
      (hfirst : ∀ other, OpensTooDeep text other → offset ≤ other) :
      DocumentOutcome text ending (.error (.nestingTooDeep offset))
  /-- A submenu of the reduced tree is named by a list. -/
  | listName (hvisible : Visible text) (hshallow : Shallow text)
      (hname : (reduce (parseDocument text).root).HasListName) :
      DocumentOutcome text ending (.error (.layout .nameNotAtom))
  /-- The reduced tree is written. -/
  | written {written : String} (hvisible : Visible text) (hshallow : Shallow text)
      (hname : ¬(reduce (parseDocument text).root).HasListName)
      (hprint : (reduce (parseDocument text).root).print = .ok written) :
      DocumentOutcome text ending (.ok (withLineBreaks (ending.usesCrlf text) written))

variable {text : String} {ending : LineEnding}

/-! ### What is looked for -/

/-- A text is blank if all of its characters are. -/
theorem isBlankText_eq_true_iff :
    isBlankText text = true ↔ ∀ c ∈ text.toList, isBlank c = true := by
  rw [isBlankText, List.all_eq_true]

/-- A text is not blank if some character of it is visible. -/
theorem isBlankText_eq_false_iff : isBlankText text = false ↔ Visible text := by
  simp [isBlankText, Visible]

/-- No list is reported as too deep exactly in a shallow text. -/
theorem findSome?_parseDocument_eq_none_iff :
    (parseDocument text).anomalies.findSome? Anomaly.tooDeep? = none ↔ Shallow text := by
  simp only [findSome?_tooDeep?_eq_none_iff, parseDocument, nestingTooDeep_mem_parse, Shallow,
    OpensTooDeep]

/-- The first report of a list as too deep is about the one that opens first. -/
theorem findSome?_parseDocument_eq_some_iff {offset : Nat} :
    (parseDocument text).anomalies.findSome? Anomaly.tooDeep? = some offset ↔
      OpensTooDeep text offset ∧ ∀ other, OpensTooDeep text other → offset ≤ other := by
  rw [parseDocument, findSome?_tooDeep?_eq_some_iff (pairwise_parse_anomalies _)]
  simp only [nestingTooDeep_mem_parse, OpensTooDeep]

/-! ### What is found -/

/-- One of the outcomes is that of the document. -/
theorem documentOutcome_reduceDocument (text : String) (ending : LineEnding) :
    DocumentOutcome text ending (reduceDocument text ending) := by
  have hreduced := reduced_reduce (parseDocument text).root
  rw [reduceDocument]
  cases hblank : isBlankText text with
  | true => exact .empty (isBlankText_eq_true_iff.mp hblank)
  | false =>
    have hvisible := isBlankText_eq_false_iff.mp hblank
    rw [if_neg (by decide)]
    cases hfound : (parseDocument text).anomalies.findSome? Anomaly.tooDeep? with
    | some offset =>
      obtain ⟨hdeep, hfirst⟩ := findSome?_parseDocument_eq_some_iff.mp hfound
      simp only [hfound]
      exact .tooDeep hvisible hdeep hfirst
    | none =>
      have hshallow := findSome?_parseDocument_eq_none_iff.mp hfound
      simp only [hfound]
      cases hprint : (reduce (parseDocument text).root).print with
      | error error =>
        obtain ⟨hname, rfl⟩ := hreduced.print_eq_error_iff.mp hprint
        exact .listName hvisible hshallow hname
      | ok written =>
        have hname := hreduced.exists_print_eq_ok_iff.mp ⟨written, hprint⟩
        exact .written hvisible hshallow hname hprint

/-- There is no other outcome, since the reasons exclude each other. -/
theorem DocumentOutcome.reduceDocument_eq {result : Except DocumentError String}
    (h : DocumentOutcome text ending result) : reduceDocument text ending = result := by
  cases h with
  | empty hblank => rw [reduceDocument, if_pos (isBlankText_eq_true_iff.mpr hblank)]
  | tooDeep hvisible hdeep hfirst =>
    have hblank := isBlankText_eq_false_iff.mpr hvisible
    have hfound := findSome?_parseDocument_eq_some_iff.mpr ⟨hdeep, hfirst⟩
    simp [reduceDocument, hblank, hfound]
  | listName hvisible hshallow hname =>
    have hblank := isBlankText_eq_false_iff.mpr hvisible
    have hfound := findSome?_parseDocument_eq_none_iff.mpr hshallow
    have hprint := (reduced_reduce _).print_eq_error_iff.mpr ⟨hname, rfl⟩
    simp [reduceDocument, hblank, hfound, hprint]
  | written hvisible hshallow _ hprint =>
    have hblank := isBlankText_eq_false_iff.mpr hvisible
    have hfound := findSome?_parseDocument_eq_none_iff.mpr hshallow
    exact reduceDocument_eq_ok_iff.mpr ⟨hblank, hfound, _, hprint, rfl⟩

/-- Reducing a document has exactly the result that its text calls for. -/
theorem reduceDocument_eq_iff {result : Except DocumentError String} :
    reduceDocument text ending = result ↔ DocumentOutcome text ending result := by
  constructor
  · rintro rfl
    exact documentOutcome_reduceDocument text ending
  · exact DocumentOutcome.reduceDocument_eq

/-! ### The reasons one by one -/

/-- A document is empty exactly if all of its characters are blanks. -/
theorem reduceDocument_eq_empty_iff :
    reduceDocument text ending = .error .empty ↔ ∀ c ∈ text.toList, isBlank c = true := by
  rw [reduceDocument_eq_iff]
  constructor
  · intro h
    cases h with
    | empty hblank => exact hblank
  · exact .empty

/-- A list is reported exactly if it is the first one of those that are opened too deep. -/
theorem reduceDocument_eq_nestingTooDeep_iff {offset : Nat} :
    reduceDocument text ending = .error (.nestingTooDeep offset) ↔
      Visible text ∧ OpensTooDeep text offset ∧
        ∀ other, OpensTooDeep text other → offset ≤ other := by
  rw [reduceDocument_eq_iff]
  constructor
  · intro h
    cases h with
    | tooDeep hvisible hdeep hfirst => exact ⟨hvisible, hdeep, hfirst⟩
  · rintro ⟨hvisible, hdeep, hfirst⟩
    exact .tooDeep hvisible hdeep hfirst

/-- There is no written form exactly if a list is left among the names, and no other reason for
that is ever given. -/
theorem reduceDocument_eq_layout_iff {error : LayoutError} :
    reduceDocument text ending = .error (.layout error) ↔
      Visible text ∧ Shallow text ∧ (reduce (parseDocument text).root).HasListName ∧
        error = .nameNotAtom := by
  rw [reduceDocument_eq_iff]
  constructor
  · intro h
    cases h with
    | listName hvisible hshallow hname => exact ⟨hvisible, hshallow, hname, rfl⟩
  · rintro ⟨hvisible, hshallow, hname, rfl⟩
    exact .listName hvisible hshallow hname

/-- Without any of these reasons there is a text. -/
theorem exists_reduceDocument_eq_ok_iff :
    (∃ out, reduceDocument text ending = .ok out) ↔
      Visible text ∧ Shallow text ∧ ¬(reduce (parseDocument text).root).HasListName := by
  constructor
  · rintro ⟨out, hout⟩
    cases reduceDocument_eq_iff.mp hout with
    | written hvisible hshallow hname _ => exact ⟨hvisible, hshallow, hname⟩
  · rintro ⟨hvisible, hshallow, hname⟩
    obtain ⟨written, hprint⟩ := (reduced_reduce _).exists_print_eq_ok_iff.mpr hname
    exact ⟨_, (DocumentOutcome.written hvisible hshallow hname hprint).reduceDocument_eq⟩

/-- **When a document is not reduced.** It is empty if and only if all of its characters are blanks.
Otherwise the first list that is opened too deep is reported, if there is one; what follows the
first node does not matter. Otherwise a list among the names of the submenus that are left is
reported, and a missing name never is. Otherwise the document is reduced. So it is reduced if
something in it can be seen, no list is opened too deep, and no submenu in it is named by a
list. -/
theorem reduceDocument_outcomes (text : String) (ending : LineEnding) :
    (reduceDocument text ending = .error .empty ↔ ∀ c ∈ text.toList, isBlank c = true) ∧
    (∀ offset, reduceDocument text ending = .error (.nestingTooDeep offset) ↔
      Visible text ∧ OpensTooDeep text offset ∧
        ∀ other, OpensTooDeep text other → offset ≤ other) ∧
    (∀ error, reduceDocument text ending = .error (.layout error) ↔
      Visible text ∧ Shallow text ∧ (reduce (parseDocument text).root).HasListName ∧
        error = .nameNotAtom) ∧
    (∀ error, reduceDocument text ending = .error (.layout error) →
      (DocumentError.layout error).message =
        "internal invariant violated: submenu name must be an atom") ∧
    ((∃ out, reduceDocument text ending = .ok out) ↔
      Visible text ∧ Shallow text ∧ ¬(reduce (parseDocument text).root).HasListName) ∧
    (Visible text → Shallow text →
      (∀ root, (parseDocument text).root = some root → ¬root.HasListName) →
      ∃ out, reduceDocument text ending = .ok out) := by
  refine ⟨reduceDocument_eq_empty_iff, fun offset => reduceDocument_eq_nestingTooDeep_iff,
    fun error => reduceDocument_eq_layout_iff, ?_, exists_reduceDocument_eq_ok_iff, ?_⟩
  · intro error herror
    obtain ⟨-, -, -, rfl⟩ := reduceDocument_eq_layout_iff.mp herror
    rfl
  · intro hvisible hshallow hnames
    refine exists_reduceDocument_eq_ok_iff.mpr ⟨hvisible, hshallow, fun hname => ?_⟩
    obtain ⟨root, hroot, hlist⟩ := exists_hasListName_of_reduce hname
    exact hnames root hroot hlist

/-- A submenu without a name does no harm, and one that is named by a list does if it is left. -/
theorem reduceDocument_outcomes_of_nameless_and_list_named :
    (∃ out, reduceDocument "(menu (submenu) snippet.a)" .crlf = .ok out) ∧
      reduceDocument "(submenu (x) snippet.a snippet.b)" .auto =
        .error (.layout .nameNotAtom) := by
  have hnameless : (parseDocument "(menu (submenu) snippet.a)").root =
      some (.menu [.list [Node.submenuHead], .atom "snippet.a"]) := by decide +kernel
  have hnamed : reduce (parseDocument "(submenu (x) snippet.a snippet.b)").root =
      .submenu (.list [.atom "x"]) [.atom "snippet.a", .atom "snippet.b"] := by decide +kernel
  constructor
  · refine (reduceDocument_outcomes _ _).2.2.2.2.2 ⟨'m', by decide, by decide⟩ ?_ ?_
    · intro offset hdeep
      have hopenings := hdeep.depth_lt_openings
      exact absurd hopenings (by decide +kernel)
    · rintro root hroot ⟨items, hname⟩
      obtain rfl : _ = root := Option.some.inj (hnameless.symm.trans hroot)
      obtain ⟨entry, hentry, hname⟩ := hname.exists_mem_entries (Node.isSubmenu_menu _)
      rw [Node.entries_menu, List.mem_cons, List.mem_singleton] at hentry
      rcases hentry with rfl | rfl
      · obtain ⟨entries, hnode⟩ | ⟨inner, hinner, -⟩ := hname.cases
        · cases hnode
        · simp at hinner
      · obtain ⟨inner, hinner, -⟩ := hname.exists_mem_entries (Node.isSubmenu_atom _)
        simp at hinner
  · refine ((reduceDocument_outcomes _ _).2.2.1 _).mpr ⟨⟨'s', by decide, by decide⟩, ?_, ?_, rfl⟩
    · intro offset hdeep
      have hopenings := hdeep.depth_lt_openings
      exact absurd hopenings (by decide +kernel)
    · rw [hnamed]
      exact ⟨_, _, .refl⟩

end Menus
