import Menus.Proofs.Tokens

/-!
# What the tokens of a text cover

The tokens of a text are pieces of it, in their order and apart from each other, and what lies
between them are gaps only. A bracket is reported as open exactly if the last token is one. This is
stated for characters that start at any byte, so that it goes over from what follows a token to the
characters from that token on.
-/

namespace Menus

namespace Token

/-- The first byte after a token. -/
def stop (token : Token) : Nat := token.offset + sizeInBytes token.text.toList

/-- A byte of the text belongs to a token. -/
def Covers (token : Token) (byte : Nat) : Prop := token.offset ≤ byte ∧ byte < token.stop

/-- A bracketed token without a closing `]`. -/
def isUnclosed (token : Token) : Bool := token.kind = .bracketed ∧ ']' ∉ token.text.toList

/-- A token has the text that its kind asks for, where the given characters follow it. A word is
complete, and a bracketed token ends with its first `]`, or at the end of the text if there is
none. -/
def IsFormed (token : Token) (after : List Char) : Prop :=
  match token.kind with
  | .opening => token.text = "("
  | .closing => token.text = ")"
  | .word => IsWordText token.text ∧ EndsWord after
  | .bracketed => IsBracketedText token.text ∨ IsOpenText token.text ∧ after = []

/-- A token stands in a text between the given characters, whose first byte is at `start`. -/
structure StandsBetween (token : Token) (start : Nat) (before after : List Char) : Prop where
  /-- Its offset counts the bytes up to it. -/
  offset_eq : token.offset = start + sizeInBytes before
  /-- Its text is that of a token. -/
  formed : token.IsFormed after

end Token

/-- Characters from a given byte on are partitioned by their tokens and the gaps between these. -/
structure Lexed.Partitions (lexed : Lexed) (start : Nat) (chars : List Char) : Prop where
  /-- A token is a piece of the characters. -/
  piece : ∀ token ∈ lexed.tokens, ∃ before after,
    chars = before ++ token.text.toList ++ after ∧ token.StandsBetween start before after
  /-- A token starts after every token before it, and not before that one has stopped. -/
  ordered : lexed.tokens.Pairwise fun token next =>
    token.offset < next.offset ∧ token.stop ≤ next.offset
  /-- Two words do not touch. -/
  maximal : lexed.tokens.Pairwise fun token next =>
    token.kind = .word → next.kind = .word → token.stop ≠ next.offset
  /-- A character that belongs to no token is a gap. -/
  gaps : ∀ before c after, chars = before ++ c :: after →
    (∀ token ∈ lexed.tokens, ¬token.Covers (start + sizeInBytes before)) → Token.isGap c = true
  /-- An anomaly is reported if the last token is an open bracket: one, and at that token. -/
  reported : lexed.anomalies =
    (lexed.tokens.getLast?.toList.filter Token.isUnclosed).map (.unterminatedBracket ·.offset)

/-- Every text but the empty one has bytes. -/
theorem sizeInBytes_pos {chars : List Char} (hne : chars ≠ []) : 0 < sizeInBytes chars := by
  obtain ⟨c, rest, rfl⟩ := List.exists_cons_of_ne_nil hne
  rw [sizeInBytes_cons]
  exact Nat.add_pos_left c.utf8Size_pos _

/-- Only the empty text has no bytes. -/
theorem sizeInBytes_eq_zero_iff {chars : List Char} : sizeInBytes chars = 0 ↔ chars = [] := by
  refine ⟨fun h => ?_, fun h => h ▸ rfl⟩
  by_contra hne
  exact absurd h (sizeInBytes_pos hne).ne'

namespace Token

/-- The characters of a token are at bytes that belong to it. -/
theorem covers_of_toList_eq (token : Token) {before after : List Char} {c : Char}
    (hsplit : token.text.toList = before ++ c :: after) :
    token.Covers (token.offset + sizeInBytes before) := by
  have hpos := c.utf8Size_pos
  refine ⟨Nat.le_add_right _ _, ?_⟩
  rw [stop, hsplit, sizeInBytes_append, sizeInBytes_cons]
  omega

/-- A token has a text. -/
theorem IsFormed.ne_nil {token : Token} {after : List Char} (h : token.IsFormed after) :
    token.text.toList ≠ [] := by
  obtain ⟨kind, text, offset⟩ := token
  cases kind with
  | opening =>
    obtain rfl : text = "(" := h
    simp
  | closing =>
    obtain rfl : text = ")" := h
    simp
  | word => exact h.1.1
  | bracketed =>
    obtain ⟨inner, hinner, -⟩ | ⟨⟨inner, hinner, -⟩, -⟩ := h
    · exact hinner ▸ List.cons_ne_nil _ _
    · exact hinner ▸ List.cons_ne_nil _ _

end Token

namespace Lexed.Partitions

variable {lexed : Lexed} {start : Nat} {chars : List Char}

/-- There are no tokens at the end of a text. -/
theorem nil : Lexed.Partitions ⟨[], none⟩ start [] where
  piece := by simp
  ordered := .nil
  maximal := .nil
  gaps := by simp
  reported := rfl

/-- A gap before some characters belongs to no token. -/
theorem gap {c : Char} (hgap : Token.isGap c = true)
    (h : lexed.Partitions (start + c.utf8Size) chars) : lexed.Partitions start (c :: chars) where
  piece := by
    intro token htoken
    obtain ⟨before, after, rfl, hoffset, hformed⟩ := h.piece token htoken
    exact ⟨c :: before, after, rfl, by rw [hoffset, sizeInBytes_cons, Nat.add_assoc], hformed⟩
  ordered := h.ordered
  maximal := h.maximal
  gaps := by
    intro before d after hsplit houtside
    cases before with
    | nil =>
      obtain ⟨rfl, -⟩ := List.cons.inj hsplit
      exact hgap
    | cons _ before =>
      obtain ⟨rfl, hrest⟩ := List.cons.inj hsplit
      refine h.gaps before d after hrest fun token htoken => ?_
      rw [Nat.add_assoc, ← sizeInBytes_cons]
      exact houtside token htoken
  reported := h.reported

/-- The tokens of what follows a token start after it; a word is not followed by a word at once. For
the first character of the second word would have to end the first one. -/
private theorem after_token {token next : Token} (hformed : token.IsFormed chars)
    (h : lexed.Partitions token.stop chars) (hnext : next ∈ lexed.tokens) :
    token.stop ≤ next.offset ∧
      (token.kind = .word → next.kind = .word → token.stop ≠ next.offset) := by
  obtain ⟨before, after, rfl, hoffset, hnextFormed⟩ := h.piece next hnext
  refine ⟨by omega, fun hword hnextWord htouch => ?_⟩
  obtain rfl : before = [] := sizeInBytes_eq_zero_iff.mp (by omega)
  rw [Token.IsFormed, hword] at hformed
  rw [Token.IsFormed, hnextWord] at hnextFormed
  obtain ⟨c, rest, hchars⟩ := List.exists_cons_of_ne_nil hnextFormed.1.1
  have hends := hformed.2 c (by rw [hchars]; rfl)
  have hchar := hnextFormed.1.2 c (by rw [hchars]; exact List.mem_cons_self)
  exact Bool.false_ne_true (hends.symm.trans hchar)

/-- A character from a token on belongs to that token or comes after it. -/
private theorem gaps_token {token : Token} (h : lexed.Partitions token.stop chars)
    {before after : List Char} {c : Char}
    (hsplit : token.text.toList ++ chars = before ++ c :: after)
    (houtside : ∀ other ∈ token :: lexed.tokens,
      ¬other.Covers (token.offset + sizeInBytes before)) : Token.isGap c = true := by
  obtain ⟨htoken, hothers⟩ := List.forall_mem_cons.mp houtside
  obtain ⟨between, rfl, hchars⟩ | ⟨inside, htext, hinside⟩ := List.append_eq_append_iff.mp hsplit
  · refine h.gaps between c after hchars fun other hother => ?_
    rw [Token.stop, Nat.add_assoc, ← sizeInBytes_append]
    exact hothers other hother
  · cases inside with
    | nil =>
      rw [List.append_nil] at htext
      refine h.gaps [] c after hinside.symm fun other hother => ?_
      rw [Token.stop, htext]
      exact hothers other hother
    | cons d inside => exact absurd (token.covers_of_toList_eq htext) htoken

/-- A token before some characters is followed by their tokens. -/
theorem token (token : Token) (hformed : token.IsFormed chars)
    (hclosed : token.isUnclosed = false) (h : lexed.Partitions token.stop chars) :
    (Lexed.after [token] lexed).Partitions token.offset (token.text.toList ++ chars) where
  piece := by
    intro other hother
    obtain rfl | hother := List.mem_cons.mp hother
    · exact ⟨[], chars, rfl, rfl, hformed⟩
    · obtain ⟨before, after, rfl, hoffset, hotherFormed⟩ := h.piece other hother
      refine ⟨token.text.toList ++ before, after, by simp, ?_, hotherFormed⟩
      rw [hoffset, Token.stop, sizeInBytes_append, Nat.add_assoc]
  ordered := by
    refine .cons (fun next hnext => ?_) h.ordered
    have hstop := (after_token hformed h hnext).1
    have hpos := sizeInBytes_pos hformed.ne_nil
    exact ⟨by rw [Token.stop] at hstop; omega, hstop⟩
  maximal := .cons (fun next hnext => (after_token hformed h hnext).2) h.maximal
  gaps := fun _ _ _ => gaps_token h
  reported := by
    have hanomalies : (Lexed.after [token] lexed).anomalies = lexed.anomalies := rfl
    rw [hanomalies, h.reported, Lexed.after, List.singleton_append, List.getLast?_cons]
    cases lexed.tokens.getLast? with
    | none => simp [hclosed]
    | some last => rfl

/-- A token of a single byte before some characters. -/
theorem parenthesis (token : Token) {c : Char} (htext : token.text.toList = [c])
    (hsize : c.utf8Size = 1) (hformed : token.IsFormed chars) (hclosed : token.isUnclosed = false)
    (h : lexed.Partitions (token.offset + 1) chars) :
    (Lexed.after [token] lexed).Partitions token.offset (c :: chars) := by
  have hstop : token.stop = token.offset + 1 := by
    rw [Token.stop, htext, sizeInBytes_cons, hsize, sizeInBytes_nil]
  have hpartitions := Partitions.token token hformed hclosed (hstop ▸ h)
  rwa [htext, List.singleton_append] at hpartitions

/-- A bracket that is left open covers all characters from it on. -/
theorem unclosed {text : String} (htext : IsOpenText text) :
    Lexed.Partitions ⟨[⟨.bracketed, text, start⟩], some start⟩ start text.toList where
  piece := by
    intro token htoken
    obtain rfl := List.mem_singleton.mp htoken
    exact ⟨[], [], by simp, rfl, Or.inr ⟨htext, rfl⟩⟩
  ordered := List.pairwise_singleton _ _
  maximal := List.pairwise_singleton _ _
  gaps := by
    intro before c after hsplit houtside
    have hcovers := Token.covers_of_toList_eq ⟨.bracketed, text, start⟩ hsplit
    exact absurd hcovers (houtside _ (List.mem_singleton.mpr rfl))
  reported := by
    obtain ⟨inner, hchars, hinner⟩ := htext
    have hopen : Token.isUnclosed ⟨.bracketed, text, start⟩ = true := by
      simp [Token.isUnclosed, hchars, hinner]
    simp [Lexed.anomalies, hopen]

end Lexed.Partitions

/-- The grammar of tokens partitions the characters. -/
theorem Lexes.partitions {start : Nat} {chars : List Char} {lexed : Lexed}
    (h : Lexes start chars lexed) : lexed.Partitions start chars := by
  induction h with
  | nil => exact .nil
  | gap hgap _ ih => exact ih.gap hgap
  | @opening start _ _ _ ih =>
    exact .parenthesis (Token.openingAt start) (by simp [Token.openingAt]) rfl rfl rfl ih
  | @closing start _ _ _ ih =>
    exact .parenthesis (Token.closingAt start) (by simp [Token.closingAt]) rfl rfl rfl ih
  | @word start text _ _ htext hends _ ih =>
    exact .token ⟨.word, text, start⟩ ⟨htext, hends⟩ rfl ih
  | @bracketed start text _ _ htext _ ih =>
    refine .token ⟨.bracketed, text, start⟩ (Or.inl htext) ?_ ih
    obtain ⟨inner, hchars, -⟩ := htext
    simp [Token.isUnclosed, hchars]
  | unclosed htext => exact .unclosed htext

/-- **The tokens of a text partition it exactly.** Every token is a piece of the text that its kind
allows, at the byte that it is found at; the tokens are in order and apart, and only gaps are left
out. Exactly a last token that is an open bracket is reported. -/
theorem partitions_scan (text : String) : (Token.scan text).Partitions 0 text.toList :=
  (Token.lexes_scan text).partitions

end Menus
