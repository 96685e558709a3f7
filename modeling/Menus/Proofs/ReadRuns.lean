import Menus.Proofs.Symbols

/-!
# What every run of reading keeps

A run takes one token at a time, whatever the tokens are. A statement about the open lists and the
tokens still to come that no single token breaks therefore decides what can be said of the node at
the end. Two such statements are used: the atoms read so far are atoms of the tokens, in the same
order, and no open list is too deep for the limit.
-/

namespace Menus

namespace Reading

/-! ### The other single tokens -/

/-- At the limit a list is reported as too deep and passed over. -/
theorem advance_opening_full {limit : Nat} {openLists : List OpenList} {token : Token}
    {tokens : List Token} (hsymbol : token.symbol = .opening) (hfull : ¬openLists.length < limit) :
    advance limit 0 openLists (token :: tokens) =
      note (.nestingTooDeep token.offset) (advance limit 1 openLists tokens) := by
  rw [Token.symbol_eq_opening_iff] at hsymbol
  simp [advance, hsymbol, hfull]

/-- A closing parenthesis outside of all lists ends the reading. -/
theorem advance_unmatched (limit : Nat) {token : Token} {tokens : List Token}
    (hsymbol : token.symbol = .closing) :
    advance limit 0 [] (token :: tokens) = ⟨none, [], tokens⟩ := by
  rw [Token.symbol_eq_closing_iff] at hsymbol
  simp [advance, hsymbol]

/-- A list inside one that is passed over is passed over as well. -/
theorem advance_passed_opening (limit passed : Nat) {openLists : List OpenList} {token : Token}
    {tokens : List Token} (hsymbol : token.symbol = .opening) :
    advance limit (passed + 1) openLists (token :: tokens) =
      advance limit (passed + 2) openLists tokens := by
  rw [Token.symbol_eq_opening_iff] at hsymbol
  simp [advance, hsymbol]

/-- A closing parenthesis ends the innermost list that is passed over. -/
theorem advance_passed_closing (limit passed : Nat) {inner : OpenList} {outer : List OpenList}
    {token : Token} {tokens : List Token} (hsymbol : token.symbol = .closing) :
    advance limit (passed + 1) (inner :: outer) (token :: tokens) =
      advance limit passed (inner :: outer) tokens := by
  rw [Token.symbol_eq_closing_iff] at hsymbol
  cases passed <;> simp [advance, hsymbol]

/-- An atom inside a list that is passed over is passed over. -/
theorem advance_passed_atom (limit passed : Nat) {openLists : List OpenList} {token : Token}
    {tokens : List Token} {text : String} (hsymbol : token.symbol = .atom text) :
    advance limit (passed + 1) openLists (token :: tokens) =
      advance limit (passed + 1) openLists tokens := by
  obtain ⟨kind, written, offset⟩ := token
  cases kind with
  | opening => cases hsymbol
  | closing => cases hsymbol
  | word => rfl
  | bracketed => rfl

/-- While a list is passed over, a token changes at most how much of that list is left. -/
theorem advance_passed (limit passed : Nat) (openLists : List OpenList) (token : Token)
    (tokens : List Token) :
    (∃ left, advance limit (passed + 1) openLists (token :: tokens) =
      advance limit left openLists tokens) ∨
    advance limit (passed + 1) openLists (token :: tokens) = ⟨none, [], tokens⟩ := by
  obtain ⟨kind, text, offset⟩ := token
  cases kind with
  | opening => exact Or.inl ⟨passed + 2, rfl⟩
  | closing =>
    cases passed with
    | zero =>
      cases openLists with
      | nil => exact Or.inr rfl
      | cons inner outer => exact Or.inl ⟨0, rfl⟩
    | succ passed => exact Or.inl ⟨passed + 1, rfl⟩
  | word => exact Or.inl ⟨passed + 1, rfl⟩
  | bracketed => exact Or.inl ⟨passed + 1, rfl⟩

/-! ### Invariants of a run -/

/-- What a complete node has to satisfy: the statement about open lists once the node is an item of
the innermost one, and without open lists the statement about the result. -/
def Completes (holds : List OpenList → List Token → Prop) (result : Node → Prop) (node : Node) :
    List OpenList → List Token → Prop
  | [], _ => result node
  | inner :: outer, tokens => holds (inner.push node :: outer) tokens

/-- A statement about the open lists and the tokens to come that no step of a run breaks, and a
statement about the node that the run ends with. -/
structure Invariant (limit : Nat) (holds : List OpenList → List Token → Prop)
    (result : Node → Prop) : Prop where
  /-- A token may be passed over. -/
  passes : ∀ {openLists token tokens}, holds openLists (token :: tokens) → holds openLists tokens
  /-- A list may be opened within the limit. -/
  opens : ∀ {openLists token tokens}, token.symbol = .opening → openLists.length < limit →
    holds openLists (token :: tokens) → holds (.start token.offset :: openLists) tokens
  /-- An atom is a complete node. -/
  atom : ∀ {openLists token tokens text}, token.symbol = .atom text →
    holds openLists (token :: tokens) → Completes holds result (.atom text) openLists tokens
  /-- The innermost list may be closed, by a token or because there are no more. -/
  closes : ∀ {inner outer tokens}, holds (inner :: outer) tokens →
    Completes holds result inner.node outer tokens

namespace Invariant

variable {limit : Nat} {holds : List OpenList → List Token → Prop} {result : Node → Prop}

/-- Closing what is open at the end of the tokens keeps an invariant. -/
private theorem node_closeAll_some (h : Invariant limit holds result) {item : Node}
    {openLists : List OpenList} (hitem : Completes holds result item openLists []) {node : Node}
    (hnode : (closeAll (some item) openLists).node = some node) : result node := by
  induction openLists generalizing item with
  | nil =>
    cases hnode
    exact hitem
  | cons inner outer ih => exact ih (h.closes hitem) hnode

/-- What closing all open lists gives has the property that they lead to. -/
private theorem node_closeAll (h : Invariant limit holds result) {openLists : List OpenList}
    (hholds : holds openLists []) {node : Node}
    (hnode : (closeAll none openLists).node = some node) : result node := by
  cases openLists with
  | nil => cases hnode
  | cons inner outer => exact h.node_closeAll_some (h.closes hholds) hnode

/-- A run from a state that satisfies an invariant ends in a node that it promises. A node that is
complete ends the run, or the run goes on from there. -/
theorem node (h : Invariant limit holds result) {passed : Nat} {openLists : List OpenList}
    {tokens : List Token} (hholds : holds openLists tokens) {node : Node}
    (hnode : (advance limit passed openLists tokens).node = some node) : result node := by
  induction tokens generalizing passed openLists with
  | nil => exact h.node_closeAll hholds hnode
  | cons token tokens ih =>
    have hresume : ∀ {item openLists}, Completes holds result item openLists tokens →
        (resume limit item openLists tokens).node = some node → result node := by
      intro item openLists hitem hnode
      cases openLists with
      | nil =>
        cases hnode
        exact hitem
      | cons inner outer => exact ih hitem hnode
    cases passed with
    | succ passed =>
      obtain ⟨left, hstep⟩ | hstep := advance_passed limit passed openLists token tokens
      · rw [hstep] at hnode
        exact ih (h.passes hholds) hnode
      · rw [hstep] at hnode
        cases hnode
    | zero =>
      cases hsymbol : token.symbol with
      | opening =>
        by_cases hroom : openLists.length < limit
        · rw [advance_opening hsymbol hroom] at hnode
          exact ih (h.opens hsymbol hroom hholds) hnode
        · rw [advance_opening_full hsymbol hroom] at hnode
          exact ih (h.passes hholds) hnode
      | closing =>
        cases openLists with
        | nil =>
          rw [advance_unmatched limit hsymbol] at hnode
          cases hnode
        | cons inner outer =>
          rw [advance_closing limit hsymbol] at hnode
          exact hresume (h.closes (h.passes hholds)) hnode
      | atom text =>
        rw [advance_atom limit hsymbol] at hnode
        exact hresume (h.atom hsymbol hholds) hnode

end Invariant

end Reading

/-! ### The atoms of the result -/

namespace OpenList

/-- A list that was just opened has no atoms. -/
@[simp] theorem atoms_node_start (offset : Nat) : (OpenList.start offset).node.atoms = [] := by
  simp [start, node]

/-- A pushed item adds its atoms at the end. -/
theorem atoms_node_push (item : Node) (openList : OpenList) :
    (openList.push item).node.atoms = openList.node.atoms ++ item.atoms := by
  simp [push, node]

/-- A list is at least as deep as it was, and one level deeper than its new item. -/
theorem depth_node_push (item : Node) (openList : OpenList) :
    (openList.push item).node.depth = max openList.node.depth (item.depth + 1) := by
  have hbounds : ∀ n, Node.depthOfAll (item :: openList.reversed).reverse ≤ n ↔
      max (Node.depthOfAll openList.reversed.reverse) item.depth ≤ n := by
    intro n
    rw [Nat.max_le, Node.depthOfAll_le_iff, Node.depthOfAll_le_iff]
    simp [or_imp, forall_and, and_comm]
  have hle := (hbounds _).mpr (Nat.le_refl _)
  have hge := (hbounds _).mp (Nat.le_refl _)
  simp only [push, node, Node.depth_list]
  omega

end OpenList

namespace Reading

/-- The atoms of the open lists, in the order of a document. -/
def openAtoms : List OpenList → List String
  | [] => []
  | inner :: outer => openAtoms outer ++ inner.node.atoms

/-- So it does to those of all open lists. -/
theorem openAtoms_push (item : Node) (inner : OpenList) (outer : List OpenList) :
    openAtoms (inner.push item :: outer) = openAtoms (inner :: outer) ++ item.atoms := by
  rw [openAtoms, OpenList.atoms_node_push, openAtoms, List.append_assoc]

/-- What was read so far and what is to come give no atoms but the ones there were. -/
theorem invariant_atoms (limit : Nat) (texts : List String) :
    Invariant limit
      (fun openLists tokens => (openAtoms openLists ++ atomTexts tokens).Sublist texts)
      (fun node => node.atoms.Sublist texts) where
  passes := by
    intro openLists token tokens h
    rw [atomTexts_cons] at h
    exact ((List.sublist_append_right _ _).append_left _).trans h
  opens := by
    intro openLists token tokens hsymbol _ h
    rw [atomTexts_cons, hsymbol] at h
    simpa [openAtoms, Symbol.text?] using h
  atom := by
    intro openLists token tokens text hsymbol h
    rw [atomTexts_cons, hsymbol] at h
    cases openLists with
    | nil => exact (List.sublist_append_left [text] _).trans h
    | cons inner outer =>
      rw [Completes, openAtoms_push]
      simpa [Symbol.text?] using h
  closes := by
    intro inner outer tokens h
    cases outer with
    | nil =>
      rw [openAtoms, openAtoms, List.nil_append] at h
      exact (List.sublist_append_left inner.node.atoms _).trans h
    | cons parent outer =>
      rw [Completes, openAtoms_push]
      exact h

/-- The atoms of a node that is read are atoms of the tokens, in the same order. -/
theorem atoms_sublist {limit : Nat} {tokens : List Token} {node : Node}
    (hnode : (advance limit 0 [] tokens).node = some node) :
    node.atoms.Sublist (atomTexts tokens) :=
  (invariant_atoms limit (atomTexts tokens)).node (List.Sublist.refl _) hnode

/-! ### The depth of the result -/

/-- Every open list would be within the limit if it were closed now. -/
def Fits (limit : Nat) : List OpenList → Prop
  | [] => True
  | inner :: outer => inner.node.depth + outer.length ≤ limit ∧ Fits limit outer

/-- No open list gets too deep, however many lists are open around it. -/
theorem invariant_fits (limit : Nat) :
    Invariant limit (fun openLists _ => Fits limit openLists) (fun node => node.depth ≤ limit) where
  passes h := h
  opens := by
    intro openLists token tokens _ hroom h
    refine ⟨?_, h⟩
    simp only [OpenList.start, OpenList.node, List.reverse_nil, Node.depth_list, Node.depthOfAll]
    omega
  atom := by
    intro openLists token tokens text _ h
    cases openLists with
    | nil => simp [Completes]
    | cons inner outer =>
      have hinner := h.1
      refine ⟨?_, h.2⟩
      rw [OpenList.depth_node_push, Node.depth_atom]
      have hpositive : 1 ≤ inner.node.depth := by simp [OpenList.node, Node.depth_list]
      omega
  closes := by
    intro inner outer tokens h
    cases outer with
    | nil => simpa [Completes] using h.1
    | cons parent outer =>
      have hinner := h.1
      have hparent := h.2.1
      refine ⟨?_, h.2.2⟩
      rw [OpenList.depth_node_push]
      rw [List.length_cons] at hinner
      omega

/-- A node that is read is within the limit. -/
theorem depth_le {limit : Nat} {tokens : List Token} {node : Node}
    (hnode : (advance limit 0 [] tokens).node = some node) : node.depth ≤ limit := by
  have hstart : Fits limit [] := trivial
  exact (invariant_fits limit).node hstart hnode

end Reading

/-! ### The root of a text -/

/-- An unmatched close is reported for a closing parenthesis in front. -/
theorem mem_unmatchedClose_iff {tokens : List Token} {anomaly : Anomaly} :
    anomaly ∈ unmatchedClose tokens ↔ ∃ token others, tokens = token :: others ∧
      token.kind = .closing ∧ anomaly = .unmatchedClose token.offset := by
  cases tokens with
  | nil => simp [unmatchedClose]
  | cons token tokens =>
    by_cases hclosing : token.kind = .closing <;> simp [unmatchedClose, hclosing]

/-- Trailing tokens are reported if there are any. -/
theorem mem_trailingTokens_iff {tokens : List Token} {anomaly : Anomaly} :
    anomaly ∈ trailingTokens tokens ↔ ∃ token others, tokens = token :: others ∧
      anomaly = .trailingTokens token.offset (others.length + 1) := by
  cases tokens <;> simp [trailingTokens]

/-- In front of the root there is at most one kind of anomaly. -/
theorem eq_of_mem_unmatchedClose {tokens : List Token} {anomaly : Anomaly}
    (h : anomaly ∈ unmatchedClose tokens) : ∃ offset, anomaly = .unmatchedClose offset := by
  obtain ⟨token, others, -, -, rfl⟩ := mem_unmatchedClose_iff.mp h
  exact ⟨token.offset, rfl⟩

/-- After the root there is at most one kind of anomaly. -/
theorem eq_of_mem_trailingTokens {tokens : List Token} {anomaly : Anomaly}
    (h : anomaly ∈ trailingTokens tokens) :
    ∃ offset count, anomaly = .trailingTokens offset count := by
  obtain ⟨token, others, -, rfl⟩ := mem_trailingTokens_iff.mp h
  exact ⟨token.offset, others.length + 1, rfl⟩

/-- The atoms of the root are atoms of the text, in the same order. -/
theorem parse_atoms_sublist {text : String} {root : Node} (hroot : (parse text).root = some root) :
    root.atoms.Sublist (atomTexts (Token.scan text).tokens) :=
  Reading.atoms_sublist hroot

/-- The root is within the depth limit. -/
theorem parse_depth_le {text : String} {root : Node} (hroot : (parse text).root = some root) :
    root.depth ≤ maxDepth :=
  Reading.depth_le hroot

end Menus
