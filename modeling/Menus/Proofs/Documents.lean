import Menus.Document
import Menus.Proofs.LineBreaks
import Menus.Proofs.ReducedTexts

/-!
# Reducing a document again and again

A document that was reduced is not changed by another reduction, except for its line breaks: these
follow the last setting that is not `auto`. The text that they are written into stays the same from
the first reduction on, because it is the text of a reduced tree, and every later reduction reads
that tree again from either form of its line breaks. A document with line feeds only is reduced in
the same way when each of them gets a carriage return; only the line breaks of the result can
differ.
-/

namespace Menus

/-- Reduce a document with one setting after the other. -/
def reduceInTurn (text : String) (endings : List LineEnding) : Except DocumentError String :=
  endings.foldlM (fun text ending => reduceDocument text ending) text

/-- Some settings ask for carriage returns if the last one that is not `auto` does. When all of
them are `auto`, it is the first line break of the document that decides. -/
def AsksForCrlf (text : String) (endings : List LineEnding) : Prop :=
  (endings.filter (· ≠ .auto)).getLast? = some .crlf ∨
    (∀ ending ∈ endings, ending = .auto) ∧ StartsCrlf text.toList

/-! ### A single reduction -/

/-- A document is reduced when something in it can be seen, no list is nested too deeply, and the
reduced tree has a written form. -/
theorem reduceDocument_eq_ok_iff {text out : String} {ending : LineEnding} :
    reduceDocument text ending = .ok out ↔
      isBlankText text = false ∧
        (parseDocument text).anomalies.findSome? Anomaly.tooDeep? = none ∧
        ∃ written, (reduce (parseDocument text).root).print = .ok written ∧
          out = withLineBreaks (ending.usesCrlf text) written := by
  rw [reduceDocument]
  by_cases hblank : isBlankText text = true
  · simp [hblank]
  · cases hdeep : (parseDocument text).anomalies.findSome? Anomaly.tooDeep? with
    | some offset => simp [hblank, hdeep]
    | none =>
      cases hprint : (reduce (parseDocument text).root).print with
      | error error => simp [hblank, hdeep, hprint]
      | ok written => simp [hblank, hdeep, hprint, eq_comm]

/-! ### Line breaks from one reduction to the next -/

/-- Whether carriage returns are written for a text, by whether its own first line break has
one. -/
def LineEnding.next (crlf : Bool) : LineEnding → Bool
  | .auto => crlf
  | .lf => false
  | .crlf => true

/-- A line ending is decided by the first line break of the text. -/
theorem LineEnding.usesCrlf_eq (ending : LineEnding) (text : String) :
    ending.usesCrlf text = ending.next (firstBreakIsCrlf false text.toList) := by
  cases ending <;> rfl

/-- The last setting that is not `auto` decides. -/
theorem LineEnding.foldl_next (crlf : Bool) (endings : List LineEnding) :
    endings.foldl LineEnding.next crlf =
      ((endings.filter (· ≠ .auto)).getLast?).elim crlf (· = .crlf) := by
  induction endings using List.reverseRecOn with
  | nil => rfl
  | append_singleton endings ending ih =>
    rw [List.foldl_append, ih, List.filter_append]
    cases ending <;> simp [LineEnding.next]

/-- Some settings for a document, one after the other, come to what they ask for. -/
theorem LineEnding.foldl_next_iff {text : String} {endings : List LineEnding} :
    endings.foldl LineEnding.next (firstBreakIsCrlf false text.toList) = true ↔
      AsksForCrlf text endings := by
  rw [LineEnding.foldl_next, AsksForCrlf]
  cases hlast : (endings.filter (· ≠ .auto)).getLast? with
  | none =>
    have hauto : ∀ ending ∈ endings, ending = .auto := by
      simpa [List.getLast?_eq_none_iff, List.filter_eq_nil_iff] using hlast
    simpa [firstBreakIsCrlf_iff] using fun _ => hauto
  | some last =>
    have hmem := List.mem_of_getLast? hlast
    rw [List.mem_filter, decide_eq_true_eq] at hmem
    have hauto : ¬∀ ending ∈ endings, ending = .auto := fun h => hmem.2 (h last hmem.1)
    simp [hauto]

/-- Line breaks are written over the characters of a text. -/
theorem toList_withLineBreaks (crlf : Bool) (text : String) :
    (withLineBreaks crlf text).toList = if crlf then toCrlf text.toList else text.toList := by
  cases crlf <;> simp [withLineBreaks]

/-- A text that is written with carriage returns is read as it was before, whatever carriage returns
it had then. -/
theorem parseDocument_crlf (text : String) :
    parseDocument (withLineBreaks true text) = parse text := by
  rw [parseDocument, toList_withLineBreaks, if_pos rfl, toLf_toCrlf, String.ofList_toList]

/-- A text with line feeds only is read as it is, whichever line breaks it was written with. -/
theorem parseDocument_withLineBreaks {text : String} (hreturn : '\r' ∉ text.toList) (crlf : Bool) :
    parseDocument (withLineBreaks crlf text) = parse text := by
  cases crlf with
  | false => rw [parseDocument, withLineBreaks, if_neg Bool.false_ne_true, toLf_eq_self hreturn,
      String.ofList_toList]
  | true => exact parseDocument_crlf text

/-- The line breaks that were written are found again, if there are any. -/
theorem firstBreakIsCrlf_withLineBreaks {text : String} (hreturn : '\r' ∉ text.toList)
    (crlf : Bool) :
    firstBreakIsCrlf false (withLineBreaks crlf text).toList =
      (crlf && decide ('\n' ∈ text.toList)) := by
  rw [toList_withLineBreaks]
  cases crlf with
  | false => exact firstBreakIsCrlf_eq_false hreturn
  | true => exact firstBreakIsCrlf_toCrlf false text.toList

/-- A text without line breaks is the same with either kind. -/
theorem withLineBreaks_eq_self {text : String} (hbreak : '\n' ∉ text.toList) (crlf : Bool) :
    withLineBreaks crlf text = text := by
  cases crlf with
  | false => rfl
  | true => rw [withLineBreaks, if_pos rfl, toCrlf_eq_self hbreak, String.ofList_toList]

namespace ReducedText

variable {node : Node} {written : String}

/-- A reduced text is not blank, whatever its line breaks are. -/
theorem not_isBlankText (h : ReducedText node written) (crlf : Bool) :
    isBlankText (withLineBreaks crlf written) = false := by
  obtain ⟨c, hc, hvisible⟩ := h.visible
  have hmem : c ∈ (withLineBreaks crlf written).toList := by
    rw [toList_withLineBreaks]
    split
    · exact mem_toCrlf hc
    · exact hc
  rw [isBlankText, List.all_eq_false]
  exact ⟨c, hmem, hvisible⟩

/-- A reduced text is reduced to itself, whichever line breaks it has and gets. -/
theorem reduceDocument_eq (h : ReducedText node written) (crlf : Bool) (ending : LineEnding) :
    reduceDocument (withLineBreaks crlf written) ending =
      .ok (withLineBreaks (ending.next crlf) written) := by
  have hparse : parseDocument (withLineBreaks crlf written) = ⟨some node, []⟩ := by
    rw [parseDocument_withLineBreaks h.noReturn, h.parsed]
  have hbreaks : withLineBreaks (ending.next crlf) written =
      withLineBreaks (ending.usesCrlf (withLineBreaks crlf written)) written := by
    rw [LineEnding.usesCrlf_eq, firstBreakIsCrlf_withLineBreaks h.noReturn]
    by_cases hbreak : '\n' ∈ written.toList
    · simp [hbreak]
    · rw [withLineBreaks_eq_self hbreak, withLineBreaks_eq_self hbreak]
  rw [reduceDocument_eq_ok_iff, hparse]
  exact ⟨h.not_isBlankText crlf, rfl, written, by rw [h.reduced.reduce_eq_self, h.printed], hbreaks⟩

/-- Only the line breaks of a reduced text change from one reduction to the next. -/
theorem reduceInTurn_eq (h : ReducedText node written) (crlf : Bool) (endings : List LineEnding) :
    reduceInTurn (withLineBreaks crlf written) endings =
      .ok (withLineBreaks (endings.foldl LineEnding.next crlf) written) := by
  induction endings generalizing crlf with
  | nil => rfl
  | cons ending endings ih =>
    rw [reduceInTurn, List.foldlM_cons, h.reduceDocument_eq]
    exact ih (ending.next crlf)

end ReducedText

/-- What the first reduction of a document gives is a reduced text with line breaks. -/
theorem reducedText_of_reduceDocument {text out : String} {ending : LineEnding}
    (hreturn : '\r' ∉ toLf text.toList) (hok : reduceDocument text ending = .ok out) :
    ∃ written, ReducedText (reduce (parseDocument text).root) written ∧
      out = withLineBreaks (ending.next (firstBreakIsCrlf false text.toList)) written := by
  obtain ⟨-, -, written, hprint, hout⟩ := reduceDocument_eq_ok_iff.mp hok
  rw [LineEnding.usesCrlf_eq] at hout
  exact ⟨written, reducedText_of_print (by rwa [String.toList_ofList]) hprint, hout⟩

/-- **Reductions are stable.** If the first reduction of a document succeeds, and no carriage
return stands alone in it, then all later reductions succeed too, with whatever settings. Their
text is the written form of the reduced tree, with carriage returns exactly if the settings ask for
them. In particular a second reduction with one setting changes nothing. -/
theorem reduceInTurn_eq_ok {text out : String} {first : LineEnding}
    (hreturn : '\r' ∉ toLf text.toList) (hok : reduceDocument text first = .ok out)
    (others : List LineEnding) :
    ∃ written, (reduce (parseDocument text).root).print = .ok written ∧
      (AsksForCrlf text (first :: others) →
        reduceInTurn text (first :: others) = .ok (String.ofList (toCrlf written.toList))) ∧
      (¬AsksForCrlf text (first :: others) →
        reduceInTurn text (first :: others) = .ok written) ∧
      reduceDocument out first = .ok out := by
  obtain ⟨written, hwritten, hout⟩ := reducedText_of_reduceDocument hreturn hok
  have hlast : reduceInTurn text (first :: others) =
      .ok (withLineBreaks ((first :: others).foldl LineEnding.next
        (firstBreakIsCrlf false text.toList)) written) := by
    rw [reduceInTurn, List.foldlM_cons, hok, hout]
    exact hwritten.reduceInTurn_eq _ others
  refine ⟨written, hwritten.printed, ?_, ?_, ?_⟩
  · intro hasks
    rw [hlast, LineEnding.foldl_next_iff.mpr hasks, withLineBreaks, if_pos rfl]
  · intro hasks
    have hnext : (first :: others).foldl LineEnding.next (firstBreakIsCrlf false text.toList) =
        false := by
      rwa [← Bool.not_eq_true, LineEnding.foldl_next_iff]
    rw [hlast, hnext]
    rfl
  · rw [hout, hwritten.reduceDocument_eq]
    cases first <;> rfl

/-- A document with carriage returns, reduced three times: the second setting takes them out, and
the third one does not find them any more. -/
theorem reduceInTurn_lf_between_autos :
    reduceDocument "(menu snippet.a\r\n(snippet.b ---))" .auto =
        .ok "(menu snippet.a\r\n    (snippet.b))" ∧
      reduceInTurn "(menu snippet.a\r\n(snippet.b ---))" [.auto, .lf, .auto] =
        .ok "(menu snippet.a\n    (snippet.b))" ∧
      reduceDocument "(menu snippet.a\r\n    (snippet.b))" .auto =
        .ok "(menu snippet.a\r\n    (snippet.b))" := by
  have hok : reduceDocument "(menu snippet.a\r\n(snippet.b ---))" .auto =
      .ok "(menu snippet.a\r\n    (snippet.b))" := by decide +kernel
  have hreduced : (reduce (parseDocument "(menu snippet.a\r\n(snippet.b ---))").root).print =
      .ok "(menu snippet.a\n    (snippet.b))" := by decide +kernel
  obtain ⟨written, hprint, -, hlast, htwice⟩ :=
    reduceInTurn_eq_ok (by decide +kernel) hok [.lf, .auto]
  obtain rfl := Except.ok.inj (hreduced.symm.trans hprint)
  exact ⟨hok, hlast (by simp [AsksForCrlf]), htwice⟩

/-! ### Documents in both forms -/

/-- The setting matters for the line breaks of the result only. -/
theorem reduceDocument_eq_map (text : String) (ending : LineEnding) :
    reduceDocument text ending =
      (reduceDocument text .lf).map (withLineBreaks (ending.usesCrlf text)) := by
  rw [reduceDocument, reduceDocument]
  by_cases hblank : isBlankText text = true
  · simp only [if_pos hblank, Except.map]
  · cases hdeep : (parseDocument text).anomalies.findSome? Anomaly.tooDeep? with
    | some offset => simp only [if_neg hblank, hdeep, Except.map]
    | none =>
      cases hprint : (reduce (parseDocument text).root).print with
      | error error => simp only [if_neg hblank, hdeep, hprint, Except.map]
      | ok written =>
        simp only [if_neg hblank, hdeep, hprint, Except.map, LineEnding.usesCrlf, withLineBreaks,
          Bool.false_eq_true, if_false]

/-- Whether a text is blank does not depend on its line breaks. -/
theorem isBlankText_crlf (text : String) :
    isBlankText (withLineBreaks true text) = isBlankText text := by
  rw [isBlankText, toList_withLineBreaks, if_pos rfl, all_toCrlf (by decide), isBlankText]

/-- A document with line feeds only is reduced to the same line feeds in either form. -/
theorem reduceDocument_crlf_lf {text : String} (hreturn : '\r' ∉ text.toList) :
    reduceDocument (withLineBreaks true text) .lf = reduceDocument text .lf := by
  have hparse : parseDocument text = parse text := parseDocument_withLineBreaks hreturn false
  rw [reduceDocument, reduceDocument, isBlankText_crlf, parseDocument_crlf, ← hparse]
  simp only [LineEnding.usesCrlf]

/-- **Reducing commutes with the change of line breaks.** A text that is written with carriage
returns is read like the text before, carriage returns that stand alone included. If the text has
none, then both forms are reduced to the same text when the line breaks are asked for. When they are
taken over from the document, the form with carriage returns is reduced to the one text written with
carriage returns. Both forms fail for the same reason. -/
theorem reduceDocument_in_both_forms (text : String) :
    parseDocument (withLineBreaks true text) = parse text ∧
      ('\r' ∉ text.toList →
        (∀ ending, ending ≠ .auto →
          reduceDocument (withLineBreaks true text) ending = reduceDocument text ending) ∧
        ('\n' ∈ text.toList →
          reduceDocument (withLineBreaks true text) .auto =
            (reduceDocument text .auto).map (withLineBreaks true))) := by
  refine ⟨parseDocument_crlf text, fun hreturn => ⟨fun ending hending => ?_, fun hbreak => ?_⟩⟩
  · rw [reduceDocument_eq_map, reduceDocument_crlf_lf hreturn, reduceDocument_eq_map text ending]
    cases ending with
    | auto => exact absurd rfl hending
    | lf => rfl
    | crlf => rfl
  · have hcrlf : LineEnding.auto.usesCrlf (withLineBreaks true text) = true := by
      rw [LineEnding.usesCrlf_eq, firstBreakIsCrlf_withLineBreaks hreturn, decide_eq_true hbreak]
      rfl
    have hlf : LineEnding.auto.usesCrlf text = LineEnding.lf.usesCrlf text :=
      firstBreakIsCrlf_eq_false hreturn
    rw [reduceDocument_eq_map, hcrlf, reduceDocument_crlf_lf hreturn,
      reduceDocument_eq_map text .auto, hlf, ← reduceDocument_eq_map]

/-- A line break inside of brackets takes the form of the document, like the one that is written
before the group. -/
theorem reduceDocument_in_both_forms_of_bracketed_break :
    '\r' ∉ "(menu [snippet.a\nb] (snippet.c))".toList ∧
      '\n' ∈ "(menu [snippet.a\nb] (snippet.c))".toList ∧
      reduceDocument "(menu [snippet.a\r\nb] (snippet.c))" .lf =
        .ok "(menu [snippet.a\nb]\n    (snippet.c))" ∧
      reduceDocument "(menu [snippet.a\r\nb] (snippet.c))" .auto =
        .ok "(menu [snippet.a\r\nb]\r\n    (snippet.c))" := by
  have hreturn : '\r' ∉ "(menu [snippet.a\nb] (snippet.c))".toList := by decide
  have hbreak : '\n' ∈ "(menu [snippet.a\nb] (snippet.c))".toList := by decide
  have hform : withLineBreaks true "(menu [snippet.a\nb] (snippet.c))" =
      "(menu [snippet.a\r\nb] (snippet.c))" := by decide +kernel
  have hlf : reduceDocument "(menu [snippet.a\nb] (snippet.c))" .lf =
      .ok "(menu [snippet.a\nb]\n    (snippet.c))" := by decide +kernel
  have hauto : reduceDocument "(menu [snippet.a\nb] (snippet.c))" .auto =
      .ok "(menu [snippet.a\nb]\n    (snippet.c))" := by decide +kernel
  have hwritten : withLineBreaks true "(menu [snippet.a\nb]\n    (snippet.c))" =
      "(menu [snippet.a\r\nb]\r\n    (snippet.c))" := by decide +kernel
  obtain ⟨hasked, htaken⟩ :=
    (reduceDocument_in_both_forms "(menu [snippet.a\nb] (snippet.c))").2 hreturn
  replace hasked := hasked .lf (by decide)
  replace htaken := htaken hbreak
  rw [hform, hlf] at hasked
  rw [hform, hauto, Except.map, hwritten] at htaken
  exact ⟨hreturn, hbreak, hasked, htaken⟩

end Menus
