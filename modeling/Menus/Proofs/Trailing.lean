import Menus.Document
import Menus.Proofs.Anomalies
import Menus.Proofs.LineBreaks

/-!
# What follows the first node of a document

A document is reduced to its first node, so nothing that follows this node has an influence. At a
blank after the node nothing is collected by the scanner and no list is open for the reader: from
there on, tokens come after those of the node and the node is complete. What follows may be
irregular in any way. It is reported, but never as a list that is too deep.
-/

namespace Menus

/-! ### Tokens at the seam -/

/-- Characters that leave no bracket open keep their tokens, whatever comes after them, if the last
word ends with them. -/
theorem Lexes.scanFrom_append {offset : Nat} {chars : List Char} {lexed : Lexed}
    (h : Lexes offset chars lexed) (hclosed : lexed.openBracket = none) {after : List Char}
    (hends : EndsWord after) :
    Token.scanFrom offset .nothing (chars ++ after) =
      .after lexed.tokens (Token.scanFrom (offset + sizeInBytes chars) .nothing after) := by
  induction h with
  | nil => rfl
  | gap hgap _ ih =>
    rw [List.cons_append, Token.scanFrom_gap hgap, ih hclosed, sizeInBytes_cons, Nat.add_assoc]
  | opening _ ih =>
    rw [List.cons_append, Token.scanFrom_opening, ih hclosed, sizeInBytes_cons, Nat.add_assoc]
    rfl
  | closing _ ih =>
    rw [List.cons_append, Token.scanFrom_closing, ih hclosed, sizeInBytes_cons, Nat.add_assoc]
    rfl
  | @word offset text chars lexed htext hstops _ ih =>
    have hend : EndsWord (chars ++ after) := by
      cases chars with
      | nil => exact hends
      | cons c chars => exact hstops
    rw [List.append_assoc, Token.scanFrom_wordText htext hend, ih hclosed, sizeInBytes_append,
      Nat.add_assoc]
    rfl
  | bracketed htext _ ih =>
    rw [List.append_assoc, Token.scanFrom_bracketedText htext, ih hclosed, sizeInBytes_append,
      Nat.add_assoc]
    rfl
  | unclosed => cases hclosed

/-- A text that leaves no bracket open keeps its tokens when a blank and more text follow. -/
theorem exists_tokens_append {chars : List Char}
    (hclosed : (Token.scan (String.ofList chars)).openBracket = none) (after : List Char) :
    ∃ others, (Token.scan (String.ofList (chars ++ ' ' :: after))).tokens =
      (Token.scan (String.ofList chars)).tokens ++ others := by
  have hends : EndsWord (' ' :: after) := by simp [EndsWord, Token.isWordChar, Token.isGap]
  have hscan := (Token.lexes_scan (String.ofList chars)).scanFrom_append hclosed hends
  rw [String.toList_ofList] at hscan
  rw [Token.scan, String.toList_ofList, hscan]
  exact ⟨_, rfl⟩

/-! ### The reader at the seam -/

/-- Items up to a `)` are the same, whatever follows. -/
theorem freeItems_append {tokens : List Token} (hclosed : (freeItems tokens).closed = true)
    (others : List Token) :
    freeItems (tokens ++ others) =
      ⟨(freeItems tokens).items, true, (freeItems tokens).rest ++ others⟩ := by
  induction tokens using freeItems_induction with
  | nil =>
    rw [freeItems_nil] at hclosed
    cases hclosed
  | opening token tokens hsymbol ihinner ihothers =>
    rw [freeItems_opening hsymbol] at hclosed ⊢
    have hinner := ihinner (closed_of_closed_rest hclosed)
    rw [List.cons_append, freeItems_opening hsymbol, hinner, ihothers hclosed, freeList, hinner,
      freeList, closed_of_closed_rest hclosed]
  | closing token tokens hsymbol =>
    rw [List.cons_append, freeItems_closing hsymbol, freeItems_closing hsymbol]
  | atom token tokens text hsymbol ih =>
    rw [freeItems_atom hsymbol] at hclosed ⊢
    rw [List.cons_append, freeItems_atom hsymbol, ih hclosed]

/-- The list that a node is stands closed among the tokens if no list of it is reported as open. -/
theorem closed_of_not_unclosedList {token : Token} {tokens : List Token}
    (hsymbol : token.symbol = .opening)
    (hclosed : ∀ offset, .unclosedList offset ∉ (readNode (token :: tokens)).anomalies) :
    (freeItems tokens).closed = true := by
  by_contra hopen
  refine hclosed token.offset ?_
  have hlists : (readFreely (token :: tokens)).lists = (freeList token.offset tokens).lists 0 := by
    simp only [FreeReading.lists, readFreely, hsymbol, Option.elim_some]
  rw [readNode_eq_readFreely (by decide), hlists, limitAnomalies_within (by decide), if_neg hopen]
  exact List.mem_append_right _ (List.mem_singleton_self _)

/-- A node of which no list is left open is read in the same way, whatever follows. -/
theorem readNode_append {tokens : List Token} {root : Node}
    (hroot : (readNode tokens).node = some root)
    (hclosed : ∀ offset, .unclosedList offset ∉ (readNode tokens).anomalies)
    (others : List Token) :
    (readNode (tokens ++ others)).node = some root ∧
      (readNode (tokens ++ others)).anomalies = (readNode tokens).anomalies := by
  have htree : (readFreely (tokens ++ others)).tree = (readFreely tokens).tree := by
    cases tokens with
    | nil => cases hroot
    | cons token tokens =>
      cases hsymbol : token.symbol with
      | opening =>
        have hitems := freeItems_append (closed_of_not_unclosedList hsymbol hclosed) others
        simp [readFreely, hsymbol, freeList, hitems, closed_of_not_unclosedList hsymbol hclosed]
      | closing =>
        rw [readNode, Reading.advance_unmatched maxDepth hsymbol] at hroot
        cases hroot
      | atom text => simp only [List.cons_append, readFreely, hsymbol]
  rw [readNode_eq_readFreely (by decide)] at hroot
  rw [readNode_eq_readFreely (by decide), readNode_eq_readFreely (by decide), FreeReading.lists,
    htree]
  exact ⟨hroot, rfl⟩

/-- A text of which a root is read, with all its lists and brackets closed, keeps that root and the
first list of it that is too deep, when a blank and more text follow. -/
theorem parse_append {chars : List Char} {root : Node}
    (hroot : (parse (String.ofList chars)).root = some root)
    (hlists : ∀ offset, .unclosedList offset ∉ (parse (String.ofList chars)).anomalies)
    (hbracket : ∀ offset, .unterminatedBracket offset ∉ (parse (String.ofList chars)).anomalies)
    (after : List Char) :
    (parse (String.ofList (chars ++ ' ' :: after))).root = some root ∧
      (parse (String.ofList (chars ++ ' ' :: after))).anomalies.findSome? Anomaly.tooDeep? =
        (parse (String.ofList chars)).anomalies.findSome? Anomaly.tooDeep? := by
  simp only [unclosedList_mem_parse] at hlists
  simp only [unterminatedBracket_mem_parse] at hbracket
  obtain ⟨others, htokens⟩ :=
    exists_tokens_append (Option.eq_none_iff_forall_ne_some.mpr hbracket) after
  obtain ⟨hnode, hanomalies⟩ := readNode_append hroot hlists others
  refine ⟨by rw [← hnode, ← htokens]; rfl, ?_⟩
  refine findSome?_tooDeep?_congr (pairwise_parse_anomalies _) (pairwise_parse_anomalies _) ?_
  intro offset
  rw [mem_parse_anomalies, mem_parse_anomalies, htokens, hanomalies]
  simp [Lexed.anomalies, mem_unmatchedClose_iff, mem_trailingTokens_iff]

/-! ### Documents -/

/-- More text does not make a text blank. -/
theorem isBlankText_append {text : String} (hvisible : isBlankText text = false)
    (after : String) : isBlankText (text ++ after) = false := by
  rw [isBlankText] at hvisible
  rw [isBlankText, String.toList_append, List.all_append, hvisible, Bool.false_and]

/-- Line breaks on both sides of a space are replaced each for themselves. -/
theorem toLf_append_blank (text after : String) :
    toLf (text ++ " " ++ after).toList = toLf text.toList ++ ' ' :: toLf after.toList := by
  have hseam : (text ++ " " ++ after).toList = text.toList ++ ' ' :: after.toList := by simp
  have hblank : toLf (' ' :: after.toList) = ' ' :: toLf after.toList := toLf_cons (by simp)
  rw [hseam, toLf_append (by simp), hblank]

/-- **What follows the first node has no influence.** A text with something to be seen in it, of
which a root is read with all its lists and brackets closed, is reduced to the same text, or fails
for the same reason at the same byte, when a blank and any other text are put after it. The line
breaks have to be asked for, because the first of them may be in the other text. -/
theorem reduceDocument_append {text : String} {root : Node} {ending : LineEnding}
    (hvisible : isBlankText text = false) (hroot : (parseDocument text).root = some root)
    (hlists : ∀ offset, .unclosedList offset ∉ (parseDocument text).anomalies)
    (hbracket : ∀ offset, .unterminatedBracket offset ∉ (parseDocument text).anomalies)
    (hending : ending ≠ .auto) (after : String) :
    reduceDocument (text ++ " " ++ after) ending = reduceDocument text ending := by
  have hvisible' : isBlankText (text ++ " " ++ after) = false := by
    rw [String.append_assoc]
    exact isBlankText_append hvisible _
  have hparse := parse_append hroot hlists hbracket (toLf after.toList)
  rw [← toLf_append_blank] at hparse
  have hroots : (parseDocument (text ++ " " ++ after)).root = (parseDocument text).root :=
    hparse.1.trans hroot.symm
  have hdeep : (parseDocument (text ++ " " ++ after)).anomalies.findSome? Anomaly.tooDeep? =
      (parseDocument text).anomalies.findSome? Anomaly.tooDeep? := hparse.2
  have hbreaks : ending.usesCrlf (text ++ " " ++ after) = ending.usesCrlf text := by
    cases ending with
    | auto => exact absurd rfl hending
    | lf => rfl
    | crlf => rfl
  simp only [reduceDocument, hvisible, hvisible', hroots, hdeep, hbreaks]

/-- Parentheses that do not match, a bracket that is not closed and a line break of the other form
come after the root. -/
theorem reduceDocument_append_of_irregular :
    isBlankText "(menu snippet.a\n(snippet.b ---))" = false ∧
      (parseDocument "(menu snippet.a\n(snippet.b ---))").root =
        some (.list [.atom "menu", .atom "snippet.a", .list [.atom "snippet.b", .atom "---"]]) ∧
      reduceDocument "(menu snippet.a\n(snippet.b ---)) ) ((snippet.c [d\r\n" .lf =
        .ok "(menu snippet.a\n    (snippet.b))" := by
  have hvisible : isBlankText "(menu snippet.a\n(snippet.b ---))" = false := by decide
  have hroot : (parseDocument "(menu snippet.a\n(snippet.b ---))").root =
      some (.list [.atom "menu", .atom "snippet.a", .list [.atom "snippet.b", .atom "---"]]) := by
    decide +kernel
  have hread : (readNode (Token.scan (String.ofList
      (toLf "(menu snippet.a\n(snippet.b ---))".toList))).tokens).anomalies = [] ∧
      (Token.scan (String.ofList
        (toLf "(menu snippet.a\n(snippet.b ---))".toList))).openBracket = none := by
    decide +kernel
  have hreduced : reduceDocument "(menu snippet.a\n(snippet.b ---))" .lf =
      .ok "(menu snippet.a\n    (snippet.b))" := by
    decide +kernel
  have happend := reduceDocument_append hvisible hroot
    (fun offset => by rw [parseDocument, unclosedList_mem_parse, hread.1]; simp)
    (fun offset => by rw [parseDocument, unterminatedBracket_mem_parse, hread.2]; simp)
    (show LineEnding.lf ≠ .auto by decide) ") ((snippet.c [d\r\n"
  exact ⟨hvisible, hroot, happend.trans hreduced⟩

end Menus
