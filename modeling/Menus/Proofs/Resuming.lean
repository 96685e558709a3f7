import Menus.Proofs.DepthLimit

/-!
# Reading one node after the other

A reader counts the lists that are open. It counts up at a `(` and down again in whatever way the
list ends: by its `)`, at the end of the tokens, or inside of a list that is passed over. So between
two nodes no list is open for it, and a node is read as by a reader that starts there. This is shown
for all lists at once: the items of a list are those of the reader without a limit, cut off at what
the count leaves of the depth limit, and the count after them is the one before.
-/

namespace Menus

/-- What is left of some tokens is the end of them. -/
theorem freeItems_rest_suffix (tokens : List Token) : (freeItems tokens).rest <:+ tokens := by
  induction tokens using freeItems_induction with
  | nil => simp [freeItems_nil]
  | opening token tokens hsymbol ihinner ihothers =>
    rw [freeItems_opening hsymbol]
    exact (ihothers.trans ihinner).trans (List.suffix_cons _ _)
  | closing token tokens hsymbol =>
    rw [freeItems_closing hsymbol]
    exact List.suffix_cons _ _
  | atom token tokens text hsymbol ih =>
    rw [freeItems_atom hsymbol]
    exact ih.trans (List.suffix_cons _ _)

/-- What is left after reading a node is the end of the tokens. -/
theorem readFreely_rest_suffix (tokens : List Token) : (readFreely tokens).rest <:+ tokens := by
  cases tokens with
  | nil => exact List.suffix_rfl
  | cons token tokens =>
    rw [readFreely]
    cases token.symbol with
    | opening => exact (freeItems_rest_suffix tokens).trans (List.suffix_cons _ _)
    | closing => exact List.suffix_cons _ _
    | atom text => exact List.suffix_cons _ _

namespace Reader

/-! ### The tokens one by one -/

section Equations

variable {token : Token} {tokens : List Token} {offset depth : Nat} {anomalies : List Anomaly}

/-- A list inside the one that is passed over has to be closed first. -/
theorem passOver_opening (hsymbol : token.symbol = .opening) (inside : Nat) :
    passOver inside (token :: tokens) = passOver (inside + 1) tokens := by
  rw [Token.symbol_eq_opening_iff] at hsymbol
  simp [passOver, hsymbol]

/-- The list that is passed over ends with its closing parenthesis. -/
theorem passOver_closing (hsymbol : token.symbol = .closing) :
    passOver 0 (token :: tokens) = tokens := by
  rw [Token.symbol_eq_closing_iff] at hsymbol
  simp [passOver, hsymbol]

/-- A closing parenthesis inside closes the inner list. -/
theorem passOver_closing_inside (hsymbol : token.symbol = .closing) (inside : Nat) :
    passOver (inside + 1) (token :: tokens) = passOver inside tokens := by
  rw [Token.symbol_eq_closing_iff] at hsymbol
  simp [passOver, hsymbol]

/-- An atom is passed over. -/
theorem passOver_atom {text : String} (hsymbol : token.symbol = .atom text) (inside : Nat) :
    passOver inside (token :: tokens) = passOver inside tokens := by
  obtain ⟨kind, written, start⟩ := token
  cases kind with
  | opening => cases hsymbol
  | closing => cases hsymbol
  | word => rfl
  | bracketed => rfl

/-- Nothing is taken where no tokens are left. -/
theorem take_nil : (take ⟨[], depth, anomalies⟩).1 = (none, ⟨[], depth, anomalies⟩) := by
  rw [take]

/-- Below the limit a list is taken with its items. -/
theorem take_opening (hsymbol : token.symbol = .opening) (hroom : depth < maxDepth) :
    (take ⟨token :: tokens, depth, anomalies⟩).1 =
      (some (.list (takeItems token.offset ⟨tokens, depth + 1, anomalies⟩).1.1),
        { (takeItems token.offset ⟨tokens, depth + 1, anomalies⟩).1.2 with
          depth := (takeItems token.offset ⟨tokens, depth + 1, anomalies⟩).1.2.depth - 1 }) := by
  rw [Token.symbol_eq_opening_iff] at hsymbol
  rw [take]
  simp [hsymbol, hroom]

/-- At the limit a list is passed over and reported. -/
theorem take_opening_full (hsymbol : token.symbol = .opening) (hfull : ¬depth < maxDepth) :
    (take ⟨token :: tokens, depth, anomalies⟩).1 =
      (none, ⟨passOver 0 tokens, depth, anomalies ++ [.nestingTooDeep token.offset]⟩) := by
  rw [Token.symbol_eq_opening_iff] at hsymbol
  rw [take]
  simp [hsymbol, hfull, note]

/-- A closing parenthesis is taken away without a node. -/
theorem take_closing (hsymbol : token.symbol = .closing) :
    (take ⟨token :: tokens, depth, anomalies⟩).1 = (none, ⟨tokens, depth, anomalies⟩) := by
  rw [Token.symbol_eq_closing_iff] at hsymbol
  rw [take]
  simp [hsymbol]

/-- An atom is taken as a node. -/
theorem take_atom {text : String} (hsymbol : token.symbol = .atom text) :
    (take ⟨token :: tokens, depth, anomalies⟩).1 =
      (some (.atom text), ⟨tokens, depth, anomalies⟩) := by
  obtain ⟨kind, written, start⟩ := token
  rw [take]
  cases kind with
  | opening => cases hsymbol
  | closing => cases hsymbol
  | word => cases hsymbol; rfl
  | bracketed => cases hsymbol; rfl

/-- A list that the tokens end in is reported as left open. -/
theorem takeItems_nil :
    (takeItems offset ⟨[], depth, anomalies⟩).1 =
      ([], ⟨[], depth, anomalies ++ [.unclosedList offset]⟩) := by
  rw [takeItems]
  rfl

/-- A closing parenthesis ends the items of a list. -/
theorem takeItems_closing (hsymbol : token.symbol = .closing) :
    (takeItems offset ⟨token :: tokens, depth, anomalies⟩).1 =
      ([], ⟨tokens, depth, anomalies⟩) := by
  rw [Token.symbol_eq_closing_iff] at hsymbol
  rw [takeItems]
  simp [hsymbol]

/-- Any token but a `)` starts an item of the list. -/
theorem takeItems_item (hsymbol : token.symbol ≠ .closing) {item : Option Node} {after : Reader}
    (hitem : (take ⟨token :: tokens, depth, anomalies⟩).1 = (item, after)) :
    (takeItems offset ⟨token :: tokens, depth, anomalies⟩).1 =
      (item.toList ++ (takeItems offset after).1.1, (takeItems offset after).1.2) := by
  rw [Ne, Token.symbol_eq_closing_iff] at hsymbol
  rw [takeItems, if_neg hsymbol]
  dsimp only
  rw [hitem]

end Equations

/-! ### Whole lists -/

/-- Counting parentheses stops where the reader without a limit ends the list. -/
theorem passOver_eq (tokens : List Token) :
    passOver 0 tokens = (freeItems tokens).rest ∧
      ∀ inside, passOver (inside + 1) tokens = passOver inside (freeItems tokens).rest := by
  induction tokens using freeItems_induction with
  | nil => simp [freeItems_nil, passOver]
  | opening token tokens hsymbol ihinner ihothers =>
    simp only [passOver_opening hsymbol, freeItems_opening hsymbol]
    refine ⟨(ihinner.2 0).trans ihothers.1, fun inside => ?_⟩
    exact (ihinner.2 (inside + 1)).trans (ihothers.2 inside)
  | closing token tokens hsymbol =>
    rw [freeItems_closing hsymbol]
    exact ⟨passOver_closing hsymbol, passOver_closing_inside hsymbol⟩
  | atom token tokens text hsymbol ih =>
    simp only [passOver_atom hsymbol, freeItems_atom hsymbol]
    exact ih

/-- The anomalies after those of the items of a list: one if the list is left open. -/
def atEnd (offset : Nat) (read : FreeItems) : List Anomaly :=
  if read.closed then [] else [.unclosedList offset]

/-- A list is built or passed over, and the count of open lists is the one before it, provided that
this is so for the items. -/
private theorem take_list {token : Token} {tokens : List Token} {depth : Nat}
    {anomalies : List Anomaly} (hsymbol : token.symbol = .opening) (hdepth : depth ≤ maxDepth)
    (hitems : depth < maxDepth → (takeItems token.offset ⟨tokens, depth + 1, anomalies⟩).1 =
      (Reading.kept maxDepth (depth + 1) (freeItems tokens).items,
        ⟨(freeItems tokens).rest, depth + 1, anomalies ++
          limitAnomalies maxDepth (Placed.listsOfAll (depth + 1) (freeItems tokens).items) ++
            atEnd token.offset (freeItems tokens)⟩)) :
    (take ⟨token :: tokens, depth, anomalies⟩).1 =
      ((freeList token.offset tokens).node.within? (maxDepth - depth),
        ⟨(freeItems tokens).rest, depth,
          anomalies ++ limitAnomalies maxDepth ((freeList token.offset tokens).lists depth)⟩) := by
  by_cases hroom : depth < maxDepth
  · rw [take_opening hsymbol hroom, hitems hroom, Reading.within?_freeList hroom,
      limitAnomalies_within hroom, Nat.add_sub_cancel, List.append_assoc, atEnd]
  · obtain rfl : depth = maxDepth := by omega
    rw [take_opening_full hsymbol hroom, (passOver_eq tokens).1, Nat.sub_self, node_freeList,
      Node.within?_list_zero, limitAnomalies_beyond]

/-- The items of a list are those of the reader without a limit, without the ones that are too deep,
and as many lists are open after them as before. A list that is left open is the last item, as the
tokens have ended. -/
theorem takeItems_eq {depth : Nat} (hdepth : depth ≤ maxDepth) (tokens : List Token) (offset : Nat)
    (anomalies : List Anomaly) :
    (takeItems offset ⟨tokens, depth, anomalies⟩).1 =
      (Reading.kept maxDepth depth (freeItems tokens).items,
        ⟨(freeItems tokens).rest, depth, anomalies ++
          limitAnomalies maxDepth (Placed.listsOfAll depth (freeItems tokens).items) ++
            atEnd offset (freeItems tokens)⟩) := by
  induction tokens using freeItems_induction generalizing depth offset anomalies with
  | nil => simp [takeItems_nil, freeItems_nil, Reading.kept, limitAnomalies, atEnd]
  | closing token tokens hsymbol =>
    simp [takeItems_closing hsymbol, freeItems_closing hsymbol, Reading.kept, limitAnomalies, atEnd]
  | atom token tokens text hsymbol ih =>
    rw [takeItems_item (by simp [hsymbol]) (take_atom hsymbol), ih hdepth, freeItems_atom hsymbol]
    simp [Reading.kept, atEnd]
  | opening token tokens hsymbol ihinner ihothers =>
    have hlist := take_list hsymbol hdepth fun hroom => ihinner hroom token.offset anomalies
    rw [takeItems_item (by simp [hsymbol]) hlist, ihothers hdepth, freeItems_opening hsymbol,
      Placed.listsOfAll_cons]
    have hkept : Reading.kept maxDepth depth
        (freeList token.offset tokens :: (freeItems (freeItems tokens).rest).items) =
          ((freeList token.offset tokens).node.within? (maxDepth - depth)).toList ++
            Reading.kept maxDepth depth (freeItems (freeItems tokens).rest).items := by
      rw [Reading.kept, Reading.kept, List.map_cons, List.filterMap_cons]
      cases (freeList token.offset tokens).node.within? (maxDepth - depth) <;> rfl
    rw [hkept]
    cases hclosed : (freeItems tokens).closed with
    | true =>
      have hplaces := closed_of_mem_lists_freeList hclosed depth token.offset
      rw [limitAnomalies_append hplaces, ← List.append_assoc anomalies]
      rfl
    | false =>
      simp [freeItems_of_open hclosed, limitAnomalies, atEnd]

/-- While no list is open, a reader reads the next node like one that starts with it. -/
theorem next_eq {reader : Reader} (hdepth : reader.depth = 0) :
    reader.next = ((readNode reader.rest).node, ⟨(readNode reader.rest).rest, 0,
      reader.anomalies ++ (readNode reader.rest).anomalies⟩) := by
  obtain ⟨tokens, depth, anomalies⟩ := reader
  obtain rfl : depth = 0 := hdepth
  rw [next, readNode_eq_readFreely (by decide)]
  cases tokens with
  | nil => simp [take_nil, readFreely, FreeReading.lists, limitAnomalies]
  | cons token tokens =>
    cases hsymbol : token.symbol with
    | opening =>
      rw [take_list hsymbol (Nat.zero_le _) fun hroom => takeItems_eq hroom tokens _ _]
      simp [readFreely, hsymbol, FreeReading.lists]
    | closing =>
      rw [take_closing hsymbol]
      simp [readFreely, hsymbol, FreeReading.lists, limitAnomalies]
    | atom text =>
      rw [take_atom hsymbol]
      simp [readFreely, hsymbol, FreeReading.lists, limitAnomalies]

/-! ### Whole runs -/

/-- A reader that starts with some tokens. -/
def fresh (tokens : List Token) : Reader := { rest := tokens }

/-- A reader of some tokens, after it was asked for a number of nodes. -/
def afterNodes (tokens : List Token) : (count : Nat) → Reader
  | 0 => fresh tokens
  | count + 1 => (afterNodes tokens count).next.2

/-- Between two nodes no list is open. -/
theorem depth_afterNodes (tokens : List Token) (count : Nat) :
    (afterNodes tokens count).depth = 0 := by
  induction count with
  | zero => rfl
  | succ count ih => rw [afterNodes, next_eq ih]

/-- What is left after a call is the end of what was left before. -/
theorem rest_next_suffix {reader : Reader} (hdepth : reader.depth = 0) :
    reader.next.2.rest <:+ reader.rest := by
  rw [next_eq hdepth, readNode_eq_readFreely (by decide)]
  exact readFreely_rest_suffix reader.rest

/-- A reader is always somewhere in its tokens. -/
theorem rest_afterNodes_suffix (tokens : List Token) (count : Nat) :
    (afterNodes tokens count).rest <:+ tokens := by
  induction count with
  | zero => exact List.suffix_rfl
  | succ count ih => exact (rest_next_suffix (depth_afterNodes tokens count)).trans ih

/-- While there are tokens, a node takes at least one. -/
theorem length_rest_next_lt {reader : Reader} (hrest : reader.rest ≠ []) :
    reader.next.2.rest.length < reader.rest.length := by
  have htaken := reader.take.2
  have hlength := List.length_pos_of_ne_nil hrest
  rw [next]
  omega

/-- While no list is open, a reader finishes like one that starts with the tokens that are left. -/
theorem finish_eq {reader : Reader} (hdepth : reader.depth = 0) :
    reader.finish = ⟨(readRoot reader.rest).root,
      reader.anomalies ++ (readRoot reader.rest).anomalies⟩ := by
  rw [finish, next_eq hdepth, readRoot]
  simp only [List.append_assoc]

/-- **A reader keeps no history but its place.** However many nodes a reader was asked for, it is
somewhere in its tokens, and the next node takes at least one of those that are left, if there are
any. The node is the one that a fresh reader reads there, it takes the same tokens, and the
anomalies of the fresh reader come after those that were met before. The same holds of the root. -/
theorem reads_like_fresh (tokens : List Token) (count : Nat) {reader : Reader}
    (hreader : afterNodes tokens count = reader) :
    reader.rest <:+ tokens ∧
      (reader.rest ≠ [] → reader.next.2.rest.length < reader.rest.length) ∧
      (reader.next.1 = (fresh reader.rest).next.1 ∧
        reader.next.2.rest = (fresh reader.rest).next.2.rest ∧
        reader.next.2.anomalies = reader.anomalies ++ (fresh reader.rest).next.2.anomalies) ∧
      reader.finish.root = (fresh reader.rest).finish.root ∧
      reader.finish.anomalies = reader.anomalies ++ (fresh reader.rest).finish.anomalies := by
  have hdepth : reader.depth = 0 := hreader ▸ depth_afterNodes tokens count
  have hfresh : (fresh reader.rest).depth = 0 := rfl
  refine ⟨hreader ▸ rest_afterNodes_suffix tokens count, length_rest_next_lt, ?_, ?_⟩
  · rw [next_eq hdepth, next_eq hfresh]
    exact ⟨rfl, rfl, rfl⟩
  · rw [finish_eq hdepth, finish_eq hfresh]
    exact ⟨rfl, rfl⟩

/-- After a node of which the innermost list is too deep, a list that is left open. -/
theorem reads_like_fresh_after_deep_list :
    ∃ reader, afterNodes (List.replicate 129 (.openingAt 3) ++ List.replicate 129 (.closingAt 3) ++
        [.openingAt 7, ⟨.word, "a", 8⟩]) 1 = reader ∧
      reader.rest = [.openingAt 7, ⟨.word, "a", 8⟩] ∧
      reader.next.2.rest.length < 2 ∧
      reader.next.1 = some (.list [.atom "a"]) ∧
      reader.finish.anomalies = [.nestingTooDeep 3, .unclosedList 7] := by
  obtain ⟨reader, hreader⟩ : ∃ reader, afterNodes (List.replicate 129 (.openingAt 3) ++
      List.replicate 129 (.closingAt 3) ++ [.openingAt 7, ⟨.word, "a", 8⟩]) 1 = reader := ⟨_, rfl⟩
  have hread : reader.rest = [.openingAt 7, ⟨.word, "a", 8⟩] ∧
      reader.anomalies = [.nestingTooDeep 3] := by
    rw [← hreader, afterNodes, next_eq rfl]
    decide +kernel
  obtain ⟨-, htakes, ⟨hnode, -, -⟩, -, hanomalies⟩ := reads_like_fresh _ 1 hreader
  have hfresh : (fresh [.openingAt 7, ⟨.word, "a", 8⟩]).depth = 0 := rfl
  rw [hread.1] at htakes hnode hanomalies
  rw [next_eq hfresh] at hnode
  rw [hread.2, finish_eq hfresh] at hanomalies
  exact ⟨reader, hreader, hread.1, htakes (by simp), hnode.trans (by decide),
    hanomalies.trans (by decide)⟩

end Reader

end Menus
