import Menus.Proofs.Scanning
import Mathlib.Data.List.TakeWhile

/-!
# What the tokens of a text are

A text is cut into gaps, parentheses, words that do not touch, and bracketed tokens, of which only
the last one may lack its end. `Lexes` states this as a grammar, and scanning follows the grammar
on every text. So facts about tokens are proved by induction over the grammar, and not over the
scanner.
-/

namespace Menus

/-- A text that starts with a `[` and has no `]`. Only the end of a document can make it a token. -/
def IsOpenText (text : String) : Prop := ∃ inner, text.toList = '[' :: inner ∧ ']' ∉ inner

/-- The tokens of characters that start at a given byte. -/
inductive Lexes : Nat → List Char → Lexed → Prop
  | nil {offset : Nat} : Lexes offset [] ⟨[], none⟩
  | gap {offset : Nat} {c : Char} {chars : List Char} {lexed : Lexed}
      (hgap : Token.isGap c = true) (h : Lexes (offset + c.utf8Size) chars lexed) :
      Lexes offset (c :: chars) lexed
  | opening {offset : Nat} {chars : List Char} {lexed : Lexed}
      (h : Lexes (offset + 1) chars lexed) :
      Lexes offset ('(' :: chars) (.after [Token.openingAt offset] lexed)
  | closing {offset : Nat} {chars : List Char} {lexed : Lexed}
      (h : Lexes (offset + 1) chars lexed) :
      Lexes offset (')' :: chars) (.after [Token.closingAt offset] lexed)
  | word {offset : Nat} {text : String} {chars : List Char} {lexed : Lexed}
      (htext : IsWordText text) (hends : EndsWord chars)
      (h : Lexes (offset + sizeInBytes text.toList) chars lexed) :
      Lexes offset (text.toList ++ chars) (.after [⟨.word, text, offset⟩] lexed)
  | bracketed {offset : Nat} {text : String} {chars : List Char} {lexed : Lexed}
      (htext : IsBracketedText text)
      (h : Lexes (offset + sizeInBytes text.toList) chars lexed) :
      Lexes offset (text.toList ++ chars) (.after [⟨.bracketed, text, offset⟩] lexed)
  | unclosed {offset : Nat} {text : String} (htext : IsOpenText text) :
      Lexes offset text.toList ⟨[⟨.bracketed, text, offset⟩], some offset⟩

/-- The characters that a text with some atoms can have. -/
inductive IsCharAmong (texts : List String) : Char → Prop
  | gap {c : Char} (hgap : Token.isGap c = true) : IsCharAmong texts c
  | opening : IsCharAmong texts '('
  | closing : IsCharAmong texts ')'
  | atom {text : String} {c : Char} (htext : text ∈ texts) (hc : c ∈ text.toList) :
      IsCharAmong texts c

/-- One more atom does not take away any characters. -/
theorem IsCharAmong.later {text : String} {texts : List String} {c : Char}
    (h : IsCharAmong texts c) : IsCharAmong (text :: texts) c := by
  cases h with
  | gap hgap => exact .gap hgap
  | opening => exact .opening
  | closing => exact .closing
  | atom htext hc => exact .atom (List.mem_cons_of_mem _ htext) hc

namespace Token

/-- A bracket that is not closed goes on to the end of the text. -/
private theorem scanFrom_unclosed_bracket {inner : List Char} (hinner : ']' ∉ inner)
    (next start : Nat) (reversed : List Char) :
    scanFrom next (.bracketed start reversed) inner =
      ⟨[⟨.bracketed, String.ofList (reversed.reverse ++ inner), start⟩], some start⟩ := by
  induction inner generalizing next reversed with
  | nil => simp [scanFrom, Pending.before, Pending.token?, Pending.openBracket?]
  | cons c inner ih =>
    have hc : c ≠ ']' := by
      rintro rfl
      exact hinner (by simp)
    have hrest := ih (fun h => hinner (by simp [h])) (next + c.utf8Size) (c :: reversed)
    rw [List.reverse_cons, List.append_assoc, List.singleton_append] at hrest
    simp only [scanFrom, if_neg hc]
    exact hrest

/-- A bracket that is never closed is the last token, and runs to the end. -/
theorem scanFrom_openText {text : String} (htext : IsOpenText text) (offset : Nat) :
    scanFrom offset .nothing text.toList = ⟨[⟨.bracketed, text, offset⟩], some offset⟩ := by
  obtain ⟨inner, hchars, hinner⟩ := htext
  have hscan := scanFrom_unclosed_bracket hinner (offset + '['.utf8Size) offset ['[']
  have htext : String.ofList ('[' :: inner) = text := by rw [← hchars, String.ofList_toList]
  rw [List.reverse_singleton, List.singleton_append, htext] at hscan
  rw [hchars, ← hscan]
  rfl

/-- The first token of characters that do not start with a gap or a parenthesis. -/
private theorem exists_first_atom {c : Char} (chars : List Char) (hgap : ¬isGap c = true)
    (hopening : c ≠ '(') (hclosing : c ≠ ')') :
    (∃ text rest, c :: chars = text.toList ++ rest ∧ rest.length ≤ chars.length ∧
      (IsWordText text ∧ EndsWord rest ∨ IsBracketedText text)) ∨
    ∃ text, c :: chars = text.toList ∧ IsOpenText text := by
  by_cases hbracket : c = '['
  · subst hbracket
    by_cases hclosed : ']' ∈ chars
    · obtain ⟨inner, rest, rfl, hinner⟩ := List.eq_append_cons_of_mem hclosed
      refine Or.inl ⟨String.ofList ('[' :: inner ++ [']']), rest, by simp, by simp; omega, ?_⟩
      exact Or.inr ⟨inner, by simp, hinner⟩
    · exact Or.inr ⟨String.ofList ('[' :: chars), by simp, chars, by simp, hclosed⟩
  · have hfirst : isWordChar c = true :=
      isWordChar_iff.mpr ⟨by simpa using hgap, hopening, hclosing, hbracket⟩
    have hsplit := List.takeWhile_append_dropWhile (p := isWordChar) (l := chars)
    refine Or.inl ⟨String.ofList (c :: chars.takeWhile isWordChar), chars.dropWhile isWordChar,
      by simp [hsplit], (List.dropWhile_sublist _).length_le, Or.inl ⟨⟨by simp, ?_⟩, ?_⟩⟩
    · intro d hd
      rw [String.toList_ofList, List.mem_cons] at hd
      obtain rfl | hd := hd
      · exact hfirst
      · exact List.mem_takeWhile_imp hd
    · intro d hd
      have hstop := List.head?_dropWhile_not isWordChar chars
      rw [Option.mem_def.mp hd] at hstop
      exact hstop

/-- Scanning follows the grammar of tokens. A token takes more than one character at once, so the
induction is on the length. -/
theorem lexes_scanFrom (offset : Nat) (chars : List Char) :
    Lexes offset chars (scanFrom offset .nothing chars) := by
  induction hlength : chars.length using Nat.strongRecOn generalizing offset chars with
  | ind length ih =>
    subst hlength
    cases chars with
    | nil => exact .nil
    | cons c chars =>
      have hrest : ∀ offset rest, rest.length ≤ chars.length →
          Lexes offset rest (scanFrom offset .nothing rest) := fun offset rest hle =>
        ih rest.length (by simp; omega) offset rest rfl
      by_cases hgap : isGap c = true
      · rw [scanFrom_gap hgap]
        exact .gap hgap (hrest _ chars le_rfl)
      · by_cases hopening : c = '('
        · subst hopening
          rw [scanFrom_opening]
          exact .opening (hrest _ chars le_rfl)
        · by_cases hclosing : c = ')'
          · subst hclosing
            rw [scanFrom_closing]
            exact .closing (hrest _ chars le_rfl)
          · obtain ⟨text, rest, hsplit, hle, htext⟩ | ⟨text, hchars, htext⟩ :=
              exists_first_atom chars hgap hopening hclosing
            · rw [hsplit]
              obtain ⟨hword, hends⟩ | hbracketed := htext
              · rw [scanFrom_wordText hword hends]
                exact .word hword hends (hrest _ rest hle)
              · rw [scanFrom_bracketedText hbracketed]
                exact .bracketed hbracketed (hrest _ rest hle)
            · rw [hchars, scanFrom_openText htext]
              exact .unclosed htext

/-- The tokens of a text are those of its grammar. -/
theorem lexes_scan (text : String) : Lexes 0 text.toList (scan text) :=
  lexes_scanFrom 0 text.toList

end Token

namespace Lexes

variable {offset : Nat} {chars : List Char} {lexed : Lexed}

/-- An atom can stand in a document, or it is a bracket left open. -/
theorem isTokenText_or_isOpenText (h : Lexes offset chars lexed) :
    ∀ text ∈ atomTexts lexed.tokens, IsTokenText text ∨ IsOpenText text := by
  induction h with
  | nil => simp [atomTexts]
  | gap _ _ ih => exact ih
  | opening _ ih => exact ih
  | closing _ ih => exact ih
  | word htext _ _ ih =>
    intro text hmem
    obtain rfl | hmem := List.mem_cons.mp hmem
    · exact Or.inl (Or.inl htext)
    · exact ih text hmem
  | bracketed htext _ ih =>
    intro text hmem
    obtain rfl | hmem := List.mem_cons.mp hmem
    · exact Or.inl (Or.inr htext)
    · exact ih text hmem
  | unclosed htext =>
    intro text hmem
    obtain rfl := List.mem_singleton.mp hmem
    exact Or.inr htext

/-- An atom that another one follows can stand in a document: nothing follows an open bracket. -/
theorem pairwise_isTokenText (h : Lexes offset chars lexed) :
    (atomTexts lexed.tokens).Pairwise fun text _ => IsTokenText text := by
  induction h with
  | nil => exact .nil
  | gap _ _ ih => exact ih
  | opening _ ih => exact ih
  | closing _ ih => exact ih
  | word htext _ _ ih => exact .cons (fun _ _ => Or.inl htext) ih
  | bracketed htext _ ih => exact .cons (fun _ _ => Or.inr htext) ih
  | unclosed => exact List.pairwise_singleton _ _

/-- The characters of atoms are characters of the text. -/
theorem mem_of_mem_atomTexts (h : Lexes offset chars lexed) {text : String}
    (htext : text ∈ atomTexts lexed.tokens) {c : Char} (hc : c ∈ text.toList) : c ∈ chars := by
  induction h with
  | nil => simp [atomTexts] at htext
  | gap _ _ ih => exact List.mem_cons_of_mem _ (ih htext)
  | opening _ ih => exact List.mem_cons_of_mem _ (ih htext)
  | closing _ ih => exact List.mem_cons_of_mem _ (ih htext)
  | word _ _ _ ih =>
    obtain rfl | htext := List.mem_cons.mp htext
    · exact List.mem_append_left _ hc
    · exact List.mem_append_right _ (ih htext)
  | bracketed _ _ ih =>
    obtain rfl | htext := List.mem_cons.mp htext
    · exact List.mem_append_left _ hc
    · exact List.mem_append_right _ (ih htext)
  | unclosed =>
    obtain rfl := List.mem_singleton.mp htext
    exact hc

/-- A character of the text is a gap or a parenthesis, or it belongs to an atom. -/
theorem isCharAmong (h : Lexes offset chars lexed) {c : Char} (hc : c ∈ chars) :
    IsCharAmong (atomTexts lexed.tokens) c := by
  induction h with
  | nil => cases hc
  | gap hgap _ ih =>
    obtain rfl | hc := List.mem_cons.mp hc
    · exact .gap hgap
    · exact ih hc
  | opening _ ih =>
    obtain rfl | hc := List.mem_cons.mp hc
    · exact .opening
    · exact ih hc
  | closing _ ih =>
    obtain rfl | hc := List.mem_cons.mp hc
    · exact .closing
    · exact ih hc
  | word _ _ _ ih =>
    obtain hc | hc := List.mem_append.mp hc
    · exact .atom List.mem_cons_self hc
    · exact (ih hc).later
  | bracketed _ _ ih =>
    obtain hc | hc := List.mem_append.mp hc
    · exact .atom List.mem_cons_self hc
    · exact (ih hc).later
  | unclosed => exact .atom List.mem_cons_self hc

end Lexes

end Menus
