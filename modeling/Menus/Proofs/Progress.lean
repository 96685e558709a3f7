import Menus.Proofs.WrittenBreaks

/-!
# Reductions come to rest

A reduction need not leave its own result alone when carriage returns stand alone in the document:
one of them may have come before a line feed in writing, and then it is dropped in reading. So every
change after the first one uses up a carriage return. A weight of texts goes down with each
reduction that changes the text, and no document comes back to a text that it had before.
-/

namespace Menus

/-! ### Counting carriage returns -/

/-- All carriage returns of a text are in its atoms. -/
theorem Lexes.count_return {offset : Nat} {chars : List Char} {lexed : Lexed}
    (h : Lexes offset chars lexed) :
    chars.count '\r' = ((atomTexts lexed.tokens).flatMap String.toList).count '\r' := by
  induction h with
  | nil => rfl
  | @gap _ c _ _ hgap _ ih =>
    have hc : c ≠ '\r' := by
      rintro rfl
      revert hgap
      decide
    rwa [List.count_cons_of_ne hc]
  | opening _ ih => rwa [List.count_cons_of_ne (by decide)]
  | closing _ ih => rwa [List.count_cons_of_ne (by decide)]
  | @word _ text chars lexed _ _ _ ih =>
    rw [List.count_append, ih, ← List.count_append]
    rfl
  | @bracketed _ text chars lexed _ _ ih =>
    rw [List.count_append, ih, ← List.count_append]
    rfl
  | @unclosed _ text _ =>
    change text.toList.count '\r' = ([text].flatMap String.toList).count '\r'
    rw [List.flatMap_singleton]

/-- A text without CRLF is left alone. -/
theorem toLf_of_lfOnly {chars : List Char} (h : LfOnly chars) : toLf chars = chars := by
  induction chars with
  | nil => rfl
  | cons c chars ih =>
    rw [LfOnly, List.isChain_cons] at h
    rw [toLf_cons fun hbreak => h.1 _ hbreak.2 ⟨hbreak.1, rfl⟩, ih h.2]

/-- Reading drops carriage returns, at least one if there is one to drop. -/
theorem count_return_toLf (chars : List Char) :
    (toLf chars).count '\r' + (if LfOnly chars then 0 else 1) ≤ chars.count '\r' := by
  fun_induction toLf chars with
  | case1 => simp [LfOnly]
  | case2 chars ih =>
    have hbreak : ¬LfOnly ('\r' :: '\n' :: chars) := by simp [LfOnly]
    rw [if_neg hbreak, List.count_cons_of_ne (by decide), List.count_cons_self,
      List.count_cons_of_ne (by decide)]
    omega
  | case3 c chars hother ih =>
    have hlf : LfOnly (c :: chars) ↔ LfOnly chars := by
      refine List.isChain_cons.trans (and_iff_right ?_)
      rintro next hhead ⟨rfl, rfl⟩
      obtain ⟨rest, hrest⟩ := List.head?_eq_some_iff.mp hhead
      exact hother rest rfl hrest
    simp only [hlf, List.count_cons]
    omega

/-- Line feeds alone have no carriage return at the first of them. -/
theorem LfOnly.not_startsCrlf {chars : List Char} (h : LfOnly chars) : ¬StartsCrlf chars := by
  rintro ⟨before, after, rfl, -⟩
  exact List.isChain_iff_forall_rel_of_append_cons_cons.mp h rfl ⟨rfl, rfl⟩

/-! ### Results that are reduced to themselves -/

section

variable {text written : String} {ending : LineEnding}

/-- The text of a reduced tree has no more carriage returns than the text that was read. -/
theorem count_return_print_le (hprint : (reduce (parse text).root).print = .ok written) :
    written.toList.count '\r' ≤ text.toList.count '\r' := by
  have htexts :=
    atomTexts_of_symbols (scan_print hprint fun _ => isTokenText_of_mem_atoms_reduce).1
  rw [(Token.lexes_scan written).count_return, (Token.lexes_scan text).count_return, htexts]
  obtain hsublist | hempty := atoms_reduce_sublist text
  · exact (hsublist.flatMap String.toList).count_le '\r'
  · rw [hempty]
    exact Nat.zero_le _

/-- The text of a reduced tree with line breaks is reduced to itself if it is read as that text
again and asks for the same line breaks. -/
theorem reduceDocument_eq_self (crlf : Bool)
    (hprint : (reduce (parse text).root).print = .ok written)
    (hread : toLf (withLineBreaks crlf written).toList = written.toList)
    (hasks : withLineBreaks (ending.usesCrlf (withLineBreaks crlf written)) written =
      withLineBreaks crlf written) :
    reduceDocument (withLineBreaks crlf written) ending = .ok (withLineBreaks crlf written) := by
  have hparse : parseDocument (withLineBreaks crlf written) =
      ⟨some (reduce (parse text).root), []⟩ := by
    rw [parseDocument, hread, String.ofList_toList]
    exact parse_of_print hprint (fun _ => isTokenText_of_mem_atoms_reduce) (depth_reduce_le text)
  have hvisible : isBlankText (withLineBreaks crlf written) = false := by
    obtain ⟨c, hc, hvisible⟩ := exists_visible_of_print hprint
    refine List.all_eq_false.mpr ⟨c, ?_, hvisible⟩
    rw [toList_withLineBreaks]
    split
    · exact mem_toCrlf hc
    · exact hc
  rw [reduceDocument_eq_ok_iff, hparse]
  refine ⟨hvisible, rfl, written, ?_, hasks.symm⟩
  rw [(reduced_reduce (parse text).root).reduce_eq_self, hprint]

/-- A text that was written with carriage returns is reduced to itself. -/
theorem reduceDocument_toCrlf (hprint : (reduce (parse text).root).print = .ok written)
    (hending : ending ≠ .lf) :
    reduceDocument (withLineBreaks true written) ending = .ok (withLineBreaks true written) := by
  have hchars : (withLineBreaks true written).toList = toCrlf written.toList := by
    rw [toList_withLineBreaks, if_pos rfl]
  refine reduceDocument_eq_self true hprint (by rw [hchars, toLf_toCrlf]) ?_
  rw [LineEnding.usesCrlf_eq, hchars, firstBreakIsCrlf_toCrlf]
  by_cases hbreak : '\n' ∈ written.toList
  · rw [decide_eq_true hbreak]
    cases ending with
    | lf => exact absurd rfl hending
    | auto => rfl
    | crlf => rfl
  · rw [withLineBreaks_eq_self hbreak, withLineBreaks_eq_self hbreak]

/-- A text that has line feeds only is reduced to itself. -/
theorem reduceDocument_of_lfOnly (hprint : (reduce (parse text).root).print = .ok written)
    (hlf : LfOnly written.toList) (hending : ending ≠ .crlf) :
    reduceDocument written ending = .ok written := by
  have hstarts : firstBreakIsCrlf false written.toList = false := by
    rw [← Bool.not_eq_true, firstBreakIsCrlf_iff]
    exact hlf.not_startsCrlf
  have hasks : ending.usesCrlf written = false := by
    rw [LineEnding.usesCrlf_eq, hstarts]
    cases ending with
    | crlf => exact absurd rfl hending
    | auto => rfl
    | lf => rfl
  have hwritten : withLineBreaks false written = written := rfl
  exact reduceDocument_eq_self false hprint (toLf_of_lfOnly hlf) (by rw [hwritten, hasks, hwritten])

end

/-! ### A weight of texts -/

/-- A text weighs nothing if it is reduced to itself. Otherwise its carriage returns count, and a
little more when none of them is dropped in reading. -/
def weight (ending : LineEnding) (text : String) : Nat :=
  if reduceDocument text ending = .ok text then 0
  else 2 * text.toList.count '\r' + (if LfOnly text.toList then 2 else 1)

/-- A reduction that changes a text gives a text of smaller weight. A result with a carriage return
before a line feed is the lighter one of its count. -/
theorem weight_lt_of_reduceDocument {text reduced : String} {ending : LineEnding}
    (hreduce : reduceDocument text ending = .ok reduced) (hne : reduced ≠ text) :
    weight ending reduced < weight ending text := by
  have htext : ¬reduceDocument text ending = .ok text := by
    rw [hreduce]
    exact fun h => hne (Except.ok.inj h)
  rw [weight, weight, if_neg htext]
  split
  case isTrue => split <;> omega
  case isFalse hagain =>
    obtain ⟨-, -, written, hprint, rfl⟩ := reduceDocument_eq_ok_iff.mp hreduce
    cases huses : ending.usesCrlf text with
    | true =>
      have hending : ending ≠ .lf := by
        rintro rfl
        cases huses
      rw [huses] at hagain
      exact absurd (reduceDocument_toCrlf hprint hending) hagain
    | false =>
      have hending : ending ≠ .crlf := by
        rintro rfl
        cases huses
      have hwritten : withLineBreaks false written = written := rfl
      rw [huses, hwritten] at hagain
      rw [hwritten]
      have hbreak : ¬LfOnly written.toList :=
        fun hlf => hagain (reduceDocument_of_lfOnly hprint hlf hending)
      have hcount := count_return_print_le hprint
      have hdropped := count_return_toLf text.toList
      rw [String.toList_ofList] at hcount
      rw [if_neg hbreak]
      split at hdropped
      case isTrue hlf =>
        rw [if_pos hlf]
        omega
      case isFalse hlf =>
        rw [if_neg hlf]
        omega

end Menus
