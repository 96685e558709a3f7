import Menus.Text.LineBreak

/-!
# Line breaks of both forms

Writing line feeds as carriage returns with line feeds is undone by reading, and what was written
so is recognised by its first line break. A text without carriage returns has line feeds only.
-/

namespace Menus

/-- The first line break of a text is a carriage return with a line feed. -/
def StartsCrlf (chars : List Char) : Prop :=
  ∃ before after, chars = before ++ '\r' :: '\n' :: after ∧ '\n' ∉ before

/-- No line break starts where no text is left. -/
theorem not_startsCrlf_nil : ¬StartsCrlf [] := by
  rintro ⟨before, after, h, -⟩
  simp at h

/-- The first line break is at the first character, or it is the first one of the others. -/
theorem startsCrlf_cons {c : Char} {chars : List Char} :
    StartsCrlf (c :: chars) ↔
      c = '\r' ∧ chars.head? = some '\n' ∨ c ≠ '\n' ∧ StartsCrlf chars := by
  constructor
  · rintro ⟨before, after, h, hbefore⟩
    cases before with
    | nil =>
      obtain ⟨rfl, rfl⟩ := List.cons.inj h
      exact Or.inl ⟨rfl, rfl⟩
    | cons d before =>
      obtain ⟨rfl, rfl⟩ := List.cons.inj h
      rw [List.mem_cons, not_or] at hbefore
      exact Or.inr ⟨Ne.symm hbefore.1, before, after, rfl, hbefore.2⟩
  · rintro (⟨rfl, hhead⟩ | ⟨hc, before, after, rfl, hbefore⟩)
    · obtain ⟨after, rfl⟩ := List.head?_eq_some_iff.mp hhead
      exact ⟨[], after, rfl, by simp⟩
    · exact ⟨c :: before, after, rfl, by simp [Ne.symm hc, hbefore]⟩

/-! ### Both forms of a text -/

/-- A character that does not start a CRLF is kept. -/
theorem toLf_cons {c : Char} {chars : List Char}
    (h : ¬(c = '\r' ∧ chars.head? = some '\n')) : toLf (c :: chars) = c :: toLf chars := by
  rw [toLf.eq_def]
  split
  · contradiction
  · simp_all
  · simp_all

/-- What is written with CRLF does not start with a lone LF. -/
theorem head?_toCrlf (chars : List Char) : (toCrlf chars).head? ≠ some '\n' := by
  cases chars with
  | nil => simp [toCrlf]
  | cons c chars =>
    rw [toCrlf]
    split
    · simp
    · simpa

/-- Reading undoes the change of line breaks in writing, lone carriage returns included. -/
theorem toLf_toCrlf (chars : List Char) : toLf (toCrlf chars) = chars := by
  induction chars with
  | nil => rfl
  | cons c chars ih =>
    by_cases hc : c = '\n'
    · simp [toCrlf, hc, toLf, ih]
    · rw [toCrlf, if_neg hc, toLf_cons fun h => head?_toCrlf chars h.2, ih]

/-- A text without CR is kept. -/
theorem toLf_eq_self {chars : List Char} (hreturn : '\r' ∉ chars) : toLf chars = chars := by
  induction chars with
  | nil => rfl
  | cons c chars ih =>
    rw [List.mem_cons, not_or] at hreturn
    rw [toLf_cons fun h => hreturn.1 h.1.symm, ih hreturn.2]

/-- Line breaks change on both sides of a seam that is no line break itself. -/
theorem toLf_append {after : List Char} (hafter : after.head? ≠ some '\n') (before : List Char) :
    toLf (before ++ after) = toLf before ++ toLf after := by
  fun_induction toLf before with
  | case1 => rfl
  | case2 chars ih => rw [List.cons_append, List.cons_append, toLf, ih, List.cons_append]
  | case3 c chars hbreak ih =>
    have hhead : ¬(c = '\r' ∧ (chars ++ after).head? = some '\n') := by
      rintro ⟨rfl, hhead⟩
      cases chars with
      | nil => exact hafter hhead
      | cons d chars =>
        obtain rfl : d = '\n' := by simpa using hhead
        exact hbreak chars rfl rfl
    rw [List.cons_append, toLf_cons hhead, ih, List.cons_append]

/-- A text without LF is kept. -/
theorem toCrlf_eq_self {chars : List Char} (hbreak : '\n' ∉ chars) : toCrlf chars = chars := by
  induction chars with
  | nil => rfl
  | cons c chars ih =>
    rw [List.mem_cons, not_or] at hbreak
    rw [toCrlf, if_neg (Ne.symm hbreak.1), ih hbreak.2]

/-- No character is lost when CRLF is written. -/
theorem mem_toCrlf {c : Char} {chars : List Char} (hc : c ∈ chars) : c ∈ toCrlf chars := by
  induction chars with
  | nil => exact hc
  | cons d chars ih =>
    rw [toCrlf]
    obtain rfl | hc := List.mem_cons.mp hc
    · split <;> simp_all
    · split <;> simp [ih hc]

/-- The carriage returns that are put in are the only characters that come in addition. -/
theorem all_toCrlf {p : Char → Bool} (hreturn : p '\r' = true) (chars : List Char) :
    (toCrlf chars).all p = chars.all p := by
  induction chars with
  | nil => rfl
  | cons c chars ih =>
    rw [toCrlf]
    split
    · next hbreak => rw [List.all_cons, List.all_cons, List.all_cons, ih, hreturn, hbreak,
        Bool.true_and]
    · rw [List.all_cons, List.all_cons, ih]

/-! ### The first line break -/

/-- In what was written with carriage returns, the first line break has one. -/
theorem firstBreakIsCrlf_toCrlf (afterReturn : Bool) (chars : List Char) :
    firstBreakIsCrlf afterReturn (toCrlf chars) = decide ('\n' ∈ chars) := by
  induction chars generalizing afterReturn with
  | nil => rfl
  | cons c chars ih =>
    by_cases hc : c = '\n'
    · simp [toCrlf, hc, firstBreakIsCrlf]
    · simp [toCrlf, hc, firstBreakIsCrlf, ih, Ne.symm hc]

/-- The first line break of a text without CR is no CRLF. -/
theorem firstBreakIsCrlf_eq_false {chars : List Char} (hreturn : '\r' ∉ chars) :
    firstBreakIsCrlf false chars = false := by
  induction chars with
  | nil => rfl
  | cons c chars ih =>
    rw [List.mem_cons, not_or] at hreturn
    rw [firstBreakIsCrlf]
    simp [Ne.symm hreturn.1, ih hreturn.2]

/-- The scan for the first line break finds what it is meant to. A carriage return just before the
characters counts as their first one. -/
theorem firstBreakIsCrlf_iff {chars : List Char} :
    firstBreakIsCrlf false chars = true ↔ StartsCrlf chars := by
  have hscan : ∀ afterReturn, firstBreakIsCrlf afterReturn chars = true ↔
      StartsCrlf (if afterReturn then '\r' :: chars else chars) := by
    induction chars with
    | nil =>
      intro afterReturn
      cases afterReturn <;> simp [firstBreakIsCrlf, startsCrlf_cons, not_startsCrlf_nil]
    | cons c chars ih =>
      intro afterReturn
      by_cases hbreak : c = '\n'
      · cases afterReturn <;> simp [firstBreakIsCrlf, hbreak, startsCrlf_cons]
      · rw [firstBreakIsCrlf, if_neg hbreak, ih]
        by_cases hreturn : c = '\r'
        · cases afterReturn <;> simp [hreturn, startsCrlf_cons]
        · cases afterReturn <;> simp [hreturn, hbreak, startsCrlf_cons]
  simpa using hscan false

end Menus
