import Menus.Proofs.Tokens

/-!
# Tokens with other gaps between them

A text is scanned token by token, and a token that is complete does not depend on what comes before
it. So the tokens of a text can be set apart by any other gaps: as long as there is a gap between
each two of them, the same tokens are found again, each where it was put. Only a bracket that is
left open is not complete, since it takes in whatever follows it.
-/

namespace Menus

namespace Token

/-- The text of a token is all that its kind asks for. -/
def IsComplete (token : Token) : Prop :=
  match token.kind with
  | .opening => token.text = "("
  | .closing => token.text = ")"
  | .word => IsWordText token.text
  | .bracketed => IsBracketedText token.text

/-- A gap, and after it tokens, each with the gap that follows it. -/
def spaced (first : List Char) (pieces : List (Token × List Char)) : List Char :=
  first ++ pieces.flatMap fun piece => piece.1.text.toList ++ piece.2

/-- Without tokens there is only the first gap. -/
@[simp] theorem spaced_nil (first : List Char) : spaced first [] = first := by
  simp [spaced]

/-- A token and its gap come before those after it. -/
theorem spaced_cons (first gap : List Char) (token : Token) (pieces : List (Token × List Char)) :
    spaced first ((token, gap) :: pieces) = first ++ (token.text.toList ++ spaced gap pieces) := by
  simp [spaced]

/-! ### One token, one gap -/

/-- A gap is passed over without a token. -/
theorem scanFrom_gaps {gap : List Char} (hgap : ∀ c ∈ gap, isGap c = true) (offset : Nat)
    (rest : List Char) :
    scanFrom offset .nothing (gap ++ rest) =
      scanFrom (offset + sizeInBytes gap) .nothing rest := by
  induction gap generalizing offset with
  | nil => rfl
  | cons c gap ih =>
    obtain ⟨hc, hgap⟩ := List.forall_mem_cons.mp hgap
    rw [List.cons_append, scanFrom_gap hc, ih hgap, sizeInBytes_cons, Nat.add_assoc]

/-- A complete token is found where it stands, and nothing is collected after it. -/
theorem IsComplete.scanFrom {token : Token} (h : token.IsComplete) {rest : List Char}
    (hends : EndsWord rest) (offset : Nat) :
    scanFrom offset .nothing (token.text.toList ++ rest) =
      .after [{ token with offset := offset }]
        (Token.scanFrom (offset + sizeInBytes token.text.toList) .nothing rest) := by
  obtain ⟨kind, text, start⟩ := token
  cases kind with
  | opening =>
    obtain rfl : text = "(" := h
    simpa [openingAt, show '('.utf8Size = 1 from rfl] using scanFrom_opening offset rest
  | closing =>
    obtain rfl : text = ")" := h
    simpa [closingAt, show ')'.utf8Size = 1 from rfl] using scanFrom_closing offset rest
  | word => exact scanFrom_wordText h hends offset
  | bracketed => exact scanFrom_bracketedText h offset rest

/-- What follows a token ends it: a gap that is not empty, or the end of the text. -/
private theorem endsWord_spaced {gap : List Char} (hgap : ∀ c ∈ gap, isGap c = true)
    {pieces : List (Token × List Char)} (hapart : pieces = [] ∨ gap ≠ []) :
    EndsWord (spaced gap pieces) := by
  intro c hc
  have hmem : c ∈ gap := by
    cases gap with
    | nil =>
      obtain rfl := hapart.resolve_right (not_not_intro rfl)
      cases hc
    | cons d gap =>
      cases hc
      exact List.mem_cons_self
  exact isWordChar_eq_false_iff.mpr (Or.inl (hgap c hmem))

/-! ### All tokens of a text -/

/-- Complete tokens that are set apart by gaps are found again, each at the byte after the first gap
and all pieces before it. -/
theorem scanFrom_spaced {first : List Char} (hfirst : ∀ c ∈ first, isGap c = true)
    {pieces : List (Token × List Char)} (hcomplete : ∀ piece ∈ pieces, piece.1.IsComplete)
    (hgaps : ∀ piece ∈ pieces, ∀ c ∈ piece.2, isGap c = true)
    (hapart : ∀ piece ∈ pieces.dropLast, piece.2 ≠ []) (offset : Nat) :
    scanFrom offset .nothing (spaced first pieces) =
      ⟨pieces.mapIdx fun i piece =>
        { piece.1 with offset := offset + sizeInBytes (spaced first (pieces.take i)) }, none⟩ := by
  induction pieces generalizing first offset with
  | nil =>
    rw [spaced_nil, ← List.append_nil first, scanFrom_gaps hfirst]
    rfl
  | cons piece pieces ih =>
    obtain ⟨token, gap⟩ := piece
    rw [List.forall_mem_cons] at hcomplete hgaps
    obtain ⟨hnext, hothers⟩ :
        (pieces = [] ∨ gap ≠ []) ∧ ∀ piece ∈ pieces.dropLast, piece.2 ≠ [] := by
      by_cases hlast : pieces = []
      · simp [hlast]
      · rw [List.dropLast_cons_of_ne_nil hlast, List.forall_mem_cons] at hapart
        exact hapart.imp_left Or.inr
    rw [spaced_cons, scanFrom_gaps hfirst,
      hcomplete.1.scanFrom (endsWord_spaced hgaps.1 hnext), ih hgaps.1 hcomplete.2 hgaps.2 hothers,
      Lexed.after, List.mapIdx_cons, List.singleton_append]
    simp only [List.take_zero, spaced_nil, List.take_succ_cons, spaced_cons, sizeInBytes_append,
      Nat.add_assoc]

end Token

/-- All tokens are complete if no bracket is left open at the end. -/
theorem Lexes.isComplete {offset : Nat} {chars : List Char} {lexed : Lexed}
    (h : Lexes offset chars lexed) (hclosed : lexed.openBracket = none) :
    ∀ token ∈ lexed.tokens, token.IsComplete := by
  induction h with
  | nil => simp
  | gap _ _ ih => exact ih hclosed
  | opening _ ih => exact List.forall_mem_cons.mpr ⟨rfl, ih hclosed⟩
  | closing _ ih => exact List.forall_mem_cons.mpr ⟨rfl, ih hclosed⟩
  | word htext _ _ ih => exact List.forall_mem_cons.mpr ⟨htext, ih hclosed⟩
  | bracketed htext _ ih => exact List.forall_mem_cons.mpr ⟨htext, ih hclosed⟩
  | unclosed => cases hclosed

/-- **Gaps do not change the tokens.** When the tokens of a text without an open bracket are written
one after the other with any gaps around them, and with at least one between each two of them, the
same tokens are found in the same order, each at the byte where it was written, and no anomaly. -/
theorem scan_spaced {text : String} (hclosed : (Token.scan text).openBracket = none)
    {first : List Char} {pieces : List (Token × List Char)}
    (htokens : pieces.map Prod.fst = (Token.scan text).tokens)
    (hfirst : ∀ c ∈ first, Token.isGap c = true)
    (hgaps : ∀ piece ∈ pieces, ∀ c ∈ piece.2, Token.isGap c = true)
    (hapart : ∀ piece ∈ pieces.dropLast, piece.2 ≠ []) :
    (Token.scan (String.ofList (Token.spaced first pieces))).tokens =
        (pieces.mapIdx fun i piece =>
          { piece.1 with offset := sizeInBytes (Token.spaced first (pieces.take i)) }) ∧
      (Token.scan (String.ofList (Token.spaced first pieces))).anomalies = [] := by
  have hcomplete : ∀ piece ∈ pieces, piece.1.IsComplete := by
    intro piece hpiece
    refine (Token.lexes_scan text).isComplete hclosed _ ?_
    rw [← htokens]
    exact List.mem_map_of_mem hpiece
  rw [Token.scan, String.toList_ofList, Token.scanFrom_spaced hfirst hcomplete hgaps hapart]
  simp [Lexed.anomalies]

/-- Tokens that touch are set apart; the bracketed one holds a blank and a parenthesis. -/
theorem scan_spaced_of_touching :
    let pieces : List (Token × List Char) :=
      [(⟨.word, "a", 0⟩, [' ', '\t']), (⟨.bracketed, "[b (]", 1⟩, ['\n']), (⟨.closing, ")", 6⟩, [])]
    (Token.scan "a[b (])").openBracket = none ∧
      pieces.map Prod.fst = (Token.scan "a[b (])").tokens ∧
      String.ofList (Token.spaced ['\n'] pieces) = "\na \t[b (]\n)" ∧
      (Token.scan "\na \t[b (]\n)").tokens =
        [⟨.word, "a", 1⟩, ⟨.bracketed, "[b (]", 4⟩, ⟨.closing, ")", 10⟩] ∧
      (Token.scan "\na \t[b (]\n)").anomalies = [] := by
  intro pieces
  have hclosed : (Token.scan "a[b (])").openBracket = none := by decide
  have htokens : pieces.map Prod.fst = (Token.scan "a[b (])").tokens := by decide
  have hspaced : String.ofList (Token.spaced ['\n'] pieces) = "\na \t[b (]\n)" := by decide
  have hfirst : ∀ c ∈ ['\n'], Token.isGap c = true := by simp [Token.isGap]
  have hgaps : ∀ piece ∈ pieces, ∀ c ∈ piece.2, Token.isGap c = true := by
    simp [pieces, Token.isGap]
  obtain ⟨hfound, hnone⟩ := scan_spaced hclosed htokens hfirst hgaps (by decide)
  rw [hspaced] at hfound hnone
  exact ⟨hclosed, htokens, hspaced, hfound.trans (by decide), hnone⟩

end Menus
