import Menus.Proofs.Symbols

/-!
# Scanning token by token

After each complete token the scanner is back where it started, with nothing collected. So the
tokens of a text are found one after the other: a gap gives none, a parenthesis gives itself, and an
atom gives itself if what follows ends it. The rules at the end forget the offsets and relate a
text to its symbols only.
-/

namespace Menus

/-- The characters of words: all but gaps, parentheses and `[`. -/
def Token.isWordChar (c : Char) : Bool := !isGap c && c ≠ '(' && c ≠ ')' && c ≠ '['

/-- A text that is scanned as one word. -/
def IsWordText (text : String) : Prop :=
  text.toList ≠ [] ∧ ∀ c ∈ text.toList, Token.isWordChar c = true

/-- A text that is scanned as one bracketed token. -/
def IsBracketedText (text : String) : Prop :=
  ∃ inner, text.toList = '[' :: inner ++ [']'] ∧ ']' ∉ inner

/-- A text that can stand in a document as an atom. -/
def IsTokenText (text : String) : Prop := IsWordText text ∨ IsBracketedText text

instance (text : String) : Decidable (IsWordText text) :=
  decidable_of_iff (text.toList ≠ [] ∧ text.toList.all Token.isWordChar = true)
    (by rw [IsWordText, List.all_eq_true])

/-- What is between brackets that wrap all of a text. -/
theorem unbracketed?_eq_some_iff {chars inner : List Char} :
    unbracketed? chars = some inner ↔ chars = '[' :: inner ++ [']'] := by
  constructor
  · intro h
    unfold unbracketed? at h
    split at h
    · split at h
      · next hlast =>
        cases h
        rw [List.cons_append, List.dropLast_append_getLast? _ hlast]
      · cases h
    · cases h
  · rintro rfl
    simp [unbracketed?]

/-- A bracketed text has one bracket that is closed at its end. -/
theorem isBracketedText_iff {text : String} :
    IsBracketedText text ↔ (unbracketed? text.toList).any (fun inner => ']' ∉ inner) = true := by
  simp [IsBracketedText, Option.any_eq_true, unbracketed?_eq_some_iff]

instance (text : String) : Decidable (IsBracketedText text) :=
  decidable_of_iff _ isBracketedText_iff.symm

instance (text : String) : Decidable (IsTokenText text) := inferInstanceAs (Decidable (_ ∨ _))

/-- Characters before which a word ends. A bracketed token needs nothing of what follows it. -/
def EndsWord (chars : List Char) : Prop := ∀ c ∈ chars.head?, Token.isWordChar c = false

/-- The bytes that some characters take. -/
def sizeInBytes : List Char → Nat
  | [] => 0
  | c :: chars => c.utf8Size + sizeInBytes chars

/-- The empty text has no bytes. -/
@[simp] theorem sizeInBytes_nil : sizeInBytes [] = 0 := rfl

/-- A character adds its bytes. -/
@[simp] theorem sizeInBytes_cons (c : Char) (chars : List Char) :
    sizeInBytes (c :: chars) = c.utf8Size + sizeInBytes chars := rfl

/-- The bytes of two texts add up. -/
@[simp] theorem sizeInBytes_append (first second : List Char) :
    sizeInBytes (first ++ second) = sizeInBytes first + sizeInBytes second := by
  induction first with
  | nil => simp
  | cons c first ih => rw [List.cons_append, sizeInBytes_cons, ih, sizeInBytes_cons, Nat.add_assoc]

namespace Lexed

/-- Nothing is put in front of what is scanned. -/
@[simp] theorem after_nil (lexed : Lexed) : after [] lexed = lexed := rfl

end Lexed

namespace Token

/-- A character goes on with a word unless it is a gap or a mark. -/
theorem isWordChar_iff {c : Char} :
    isWordChar c = true ↔ isGap c = false ∧ c ≠ '(' ∧ c ≠ ')' ∧ c ≠ '[' := by
  simp [isWordChar, and_assoc]

/-- A word ends before a gap or a mark. -/
theorem isWordChar_eq_false_iff {c : Char} :
    isWordChar c = false ↔ isGap c = true ∨ c = '(' ∨ c = ')' ∨ c = '[' := by
  simp only [isWordChar, Bool.and_eq_false_iff, Bool.not_eq_false', decide_eq_false_iff_not,
    ne_eq, Decidable.not_not, or_assoc]

/-- A gap is passed over. -/
theorem scanFrom_gap {c : Char} (hgap : isGap c = true) (offset : Nat) (chars : List Char) :
    scanFrom offset .nothing (c :: chars) = scanFrom (offset + c.utf8Size) .nothing chars := by
  have hother : c ≠ '[' ∧ c ≠ '(' ∧ c ≠ ')' := by
    refine ⟨?_, ?_, ?_⟩ <;> rintro rfl <;> exact absurd hgap (by decide)
  simp [scanFrom, hother, hgap, Pending.before, Pending.token?]

/-- An opening parenthesis is a token. -/
theorem scanFrom_opening (offset : Nat) (chars : List Char) :
    scanFrom offset .nothing ('(' :: chars) =
      .after [openingAt offset] (scanFrom (offset + 1) .nothing chars) := by
  rfl

/-- So is a closing parenthesis. -/
theorem scanFrom_closing (offset : Nat) (chars : List Char) :
    scanFrom offset .nothing (')' :: chars) =
      .after [closingAt offset] (scanFrom (offset + 1) .nothing chars) := by
  rfl

/-- A word is complete at its end or before a character that is no part of a word. -/
private theorem scanFrom_word_ends {chars : List Char} (hends : EndsWord chars)
    (next start : Nat) (reversed : List Char) :
    scanFrom next (.word start reversed) chars =
      .after [⟨.word, String.ofList reversed.reverse, start⟩] (scanFrom next .nothing chars) := by
  cases chars with
  | nil => rfl
  | cons c rest =>
    obtain hgap | rfl | rfl | rfl := isWordChar_eq_false_iff.mp (hends c rfl)
    · have hother : c ≠ '[' ∧ c ≠ '(' ∧ c ≠ ')' := by
        refine ⟨?_, ?_, ?_⟩ <;> rintro rfl <;> exact absurd hgap (by decide)
      rw [scanFrom_gap hgap]
      simp [scanFrom, hother, hgap, Pending.before, Pending.token?]
    · simp [scanFrom, Lexed.after, Pending.before, Pending.token?]
    · simp [scanFrom, Lexed.after, Pending.before, Pending.token?]
    · simp [scanFrom, Lexed.after, Pending.before, Pending.token?]

/-- A word goes on to its end and is a token then. -/
private theorem scanFrom_word {word rest : List Char}
    (hword : ∀ c ∈ word, isWordChar c = true) (hends : EndsWord rest)
    (next start : Nat) (reversed : List Char) :
    scanFrom next (.word start reversed) (word ++ rest) =
      .after [⟨.word, String.ofList (reversed.reverse ++ word), start⟩]
        (scanFrom (next + sizeInBytes word) .nothing rest) := by
  induction word generalizing next reversed with
  | nil => simpa using scanFrom_word_ends hends next start reversed
  | cons c word ih =>
    obtain ⟨hgap, hopening, hclosing, hbracket⟩ := isWordChar_iff.mp (hword c (by simp))
    have hrest := ih (fun c h => hword c (by simp [h])) (next + c.utf8Size) (c :: reversed)
    rw [List.reverse_cons, List.append_assoc, List.singleton_append, Nat.add_assoc,
      ← sizeInBytes_cons] at hrest
    simp only [List.cons_append, scanFrom, if_neg hbracket, if_neg hopening, if_neg hclosing, hgap,
      Bool.false_eq_true, if_false, Pending.push]
    exact hrest

/-- A bracket goes on to where it is closed and is a token then. -/
private theorem scanFrom_bracketed {inner : List Char} (hinner : ']' ∉ inner)
    (rest : List Char) (next start : Nat) (reversed : List Char) :
    scanFrom next (.bracketed start reversed) (inner ++ ']' :: rest) =
      .after [⟨.bracketed, String.ofList (reversed.reverse ++ inner ++ [']']), start⟩]
        (scanFrom (next + sizeInBytes (inner ++ [']'])) .nothing rest) := by
  induction inner generalizing next reversed with
  | nil => simp [scanFrom, Pending.before, Pending.token?]
  | cons c inner ih =>
    have hc : c ≠ ']' := by
      rintro rfl
      exact hinner (by simp)
    have hrest := ih (fun h => hinner (by simp [h])) (next + c.utf8Size) (c :: reversed)
    rw [List.reverse_cons, List.append_assoc, List.append_assoc, List.singleton_append,
      Nat.add_assoc, ← sizeInBytes_cons] at hrest
    simp only [List.cons_append, scanFrom, if_neg hc]
    rw [hrest, List.append_assoc, List.cons_append]

/-- A word is scanned as one token if what follows ends it. -/
theorem scanFrom_wordText {text : String} {rest : List Char} (htext : IsWordText text)
    (hends : EndsWord rest) (offset : Nat) :
    scanFrom offset .nothing (text.toList ++ rest) =
      .after [⟨.word, text, offset⟩]
        (scanFrom (offset + sizeInBytes text.toList) .nothing rest) := by
  obtain ⟨hne, hword⟩ := htext
  obtain ⟨c, word, hchars⟩ := List.exists_cons_of_ne_nil hne
  rw [hchars] at hword
  obtain ⟨hgap, hopening, hclosing, hbracket⟩ := isWordChar_iff.mp (hword c (by simp))
  have hscan := scanFrom_word (fun d hd => hword d (List.mem_cons_of_mem c hd)) hends
    (offset + c.utf8Size) offset [c]
  have htext : String.ofList (c :: word) = text := by rw [← hchars, String.ofList_toList]
  rw [List.reverse_singleton, List.singleton_append, htext, Nat.add_assoc, ← sizeInBytes_cons,
    ← hchars] at hscan
  rw [← hscan, hchars]
  simp only [List.cons_append, scanFrom, if_neg hbracket, if_neg hopening, if_neg hclosing, hgap,
    Bool.false_eq_true, if_false, Pending.push]

/-- A bracketed atom is scanned as one token, whatever follows. -/
theorem scanFrom_bracketedText {text : String} (htext : IsBracketedText text) (offset : Nat)
    (rest : List Char) :
    scanFrom offset .nothing (text.toList ++ rest) =
      .after [⟨.bracketed, text, offset⟩]
        (scanFrom (offset + sizeInBytes text.toList) .nothing rest) := by
  obtain ⟨inner, hinner, hclosed⟩ := htext
  have hscan := scanFrom_bracketed hclosed rest (offset + '['.utf8Size) offset ['[']
  have htext : String.ofList ('[' :: inner ++ [']']) = text := by
    rw [← hinner, String.ofList_toList]
  rw [List.reverse_singleton, List.singleton_append, htext, Nat.add_assoc, ← sizeInBytes_cons,
    ← List.cons_append, ← hinner] at hscan
  rw [← hscan, hinner, List.append_assoc, List.cons_append, List.singleton_append]
  rfl

end Token

/-! ### Texts and their symbols -/

/-- The characters are scanned as tokens with the given symbols, and no bracket is left open. -/
def Scans (chars : List Char) (symbols : List Symbol) : Prop :=
  ∀ offset, (Token.scanFrom offset .nothing chars).tokens.map Token.symbol = symbols ∧
    (Token.scanFrom offset .nothing chars).openBracket = none

namespace Scans

/-- The empty text is scanned as no symbols. -/
theorem nil : Scans [] [] := fun _ => ⟨rfl, rfl⟩

/-- A gap in front adds no symbol. -/
theorem gap {c : Char} {chars : List Char} {symbols : List Symbol} (hgap : Token.isGap c = true)
    (h : Scans chars symbols) : Scans (c :: chars) symbols := by
  intro offset
  rw [Token.scanFrom_gap hgap]
  exact h _

/-- Nor do many gaps. -/
theorem gaps {blanks chars : List Char} {symbols : List Symbol}
    (hblanks : ∀ c ∈ blanks, Token.isGap c = true) (h : Scans chars symbols) :
    Scans (blanks ++ chars) symbols := by
  induction blanks with
  | nil => exact h
  | cons c blanks ih => exact (ih fun c h => hblanks c (by simp [h])).gap (hblanks c (by simp))

/-- An opening parenthesis in front is a symbol of its own. -/
theorem opening {chars : List Char} {symbols : List Symbol} (h : Scans chars symbols) :
    Scans ('(' :: chars) (.opening :: symbols) := by
  intro offset
  obtain ⟨htokens, hbracket⟩ := h (offset + 1)
  rw [Token.scanFrom_opening]
  exact ⟨congrArg (Symbol.opening :: ·) htokens, hbracket⟩

/-- So is a closing parenthesis. -/
theorem closing {chars : List Char} {symbols : List Symbol} (h : Scans chars symbols) :
    Scans (')' :: chars) (.closing :: symbols) := by
  intro offset
  obtain ⟨htokens, hbracket⟩ := h (offset + 1)
  rw [Token.scanFrom_closing]
  exact ⟨congrArg (Symbol.closing :: ·) htokens, hbracket⟩

/-- The text of a token in front is an atom if a word can end behind it. -/
theorem atom {text : String} {chars : List Char} {symbols : List Symbol}
    (htext : IsTokenText text) (hends : EndsWord chars) (h : Scans chars symbols) :
    Scans (text.toList ++ chars) (.atom text :: symbols) := by
  intro offset
  obtain ⟨htokens, hbracket⟩ := h (offset + sizeInBytes text.toList)
  obtain hword | hbracketed := htext
  · rw [Token.scanFrom_wordText hword hends]
    exact ⟨congrArg (Symbol.atom text :: ·) htokens, hbracket⟩
  · rw [Token.scanFrom_bracketedText hbracketed]
    exact ⟨congrArg (Symbol.atom text :: ·) htokens, hbracket⟩

end Scans

end Menus
