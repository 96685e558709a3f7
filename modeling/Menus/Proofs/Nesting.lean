import Menus.Proofs.ReadRuns

/-!
# Lists that are opened too deep

Whether a list is too deep can be told without reading anything: the parentheses in front of its `(`
are counted, as far as the first node goes. What a reader with a depth limit reports is exactly what
this count finds, since passing over a list is counting as well. Of several lists that are too deep,
the report of a text names the first one.
-/

namespace Menus

/-! ### Counting parentheses -/

/-- The number of `(` among some tokens. -/
def openings (tokens : List Token) : Nat := tokens.countP (·.kind = .opening)

/-- The number of `)` among some tokens. -/
def closings (tokens : List Token) : Nat := tokens.countP (·.kind = .closing)

/-- Some list stays open after each of the tokens, when as many as `around` are open before them. So
none of the tokens is the last one of a node. -/
def StaysOpen (around : Nat) (tokens : List Token) : Prop :=
  ∀ taken, taken <+: tokens → taken ≠ [] → closings taken < openings taken + around

/-- The `(` at the given byte belongs to the first node of the tokens, and it is opened while
`depth` lists are open. As many as `around` lists of the node are open before the tokens. -/
def OpensAt (around depth offset : Nat) (tokens : List Token) : Prop :=
  ∃ before token after, tokens = before ++ token :: after ∧ token.kind = .opening ∧
    token.offset = offset ∧ StaysOpen around before ∧
    openings before + around = closings before + depth

/-- The number of open lists after a token. -/
def Token.openAfter (token : Token) (around : Nat) : Nat :=
  match token.symbol with
  | .opening => around + 1
  | .closing => around - 1
  | .atom _ => around

section Symbols

variable {token : Token}

/-- An opening parenthesis opens another list. -/
theorem Token.openAfter_opening (hsymbol : token.symbol = .opening) (around : Nat) :
    token.openAfter around = around + 1 := by
  rw [openAfter, hsymbol]

/-- A closing parenthesis closes the innermost list. -/
theorem Token.openAfter_closing (hsymbol : token.symbol = .closing) (around : Nat) :
    token.openAfter around = around - 1 := by
  rw [openAfter, hsymbol]

/-- An atom neither opens nor closes a list. -/
theorem Token.openAfter_atom {text : String} (hsymbol : token.symbol = .atom text)
    (around : Nat) : token.openAfter around = around := by
  rw [openAfter, hsymbol]

end Symbols

/-- A token adds to the openings if it is one. -/
theorem openings_cons (token : Token) (tokens : List Token) :
    openings (token :: tokens) = openings tokens + if token.symbol = .opening then 1 else 0 := by
  simp [openings, List.countP_cons, Token.symbol_eq_opening_iff]

/-- A token adds to the closings if it is one. -/
theorem closings_cons (token : Token) (tokens : List Token) :
    closings (token :: tokens) = closings tokens + if token.symbol = .closing then 1 else 0 := by
  simp [closings, List.countP_cons, Token.symbol_eq_closing_iff]

/-- What is counted from a token on is counted from the lists that are open after it. -/
theorem Token.count_openAfter {token : Token} {around : Nat} (hopen : 0 < token.openAfter around)
    (tokens : List Token) :
    openings (token :: tokens) + around + closings tokens =
      openings tokens + token.openAfter around + closings (token :: tokens) := by
  rw [openings_cons, closings_cons]
  rw [openAfter] at hopen ⊢
  cases hsymbol : token.symbol <;> simp [hsymbol] at hopen ⊢ <;> omega

/-- A single token leaves a list open if the count after it says so. -/
theorem Token.openAfter_pos_iff {token : Token} {around : Nat} :
    0 < token.openAfter around ↔ closings [token] < openings [token] + around := by
  rw [openings_cons, closings_cons, openAfter]
  cases token.symbol <;>
    simp only [openings, closings, List.countP_nil, reduceCtorEq, if_true, if_false] <;> omega

/-- A list stays open if it does after the first token and from there on. -/
theorem staysOpen_cons {around : Nat} {token : Token} {tokens : List Token} :
    StaysOpen around (token :: tokens) ↔
      0 < token.openAfter around ∧ StaysOpen (token.openAfter around) tokens := by
  constructor
  · intro h
    have hopen : 0 < token.openAfter around := by
      rw [Token.openAfter_pos_iff]
      exact h [token] (by simp) (by simp)
    refine ⟨hopen, fun taken htaken _ => ?_⟩
    have hcount := token.count_openAfter hopen taken
    have hmore := h (token :: taken) (by simpa using htaken) (by simp)
    omega
  · rintro ⟨hopen, h⟩ taken htaken hne
    obtain ⟨first, others, rfl⟩ := List.exists_cons_of_ne_nil hne
    obtain ⟨rfl, hothers⟩ := List.cons_prefix_cons.mp htaken
    by_cases hnil : others = []
    · rw [hnil, ← Token.openAfter_pos_iff]
      exact hopen
    · have hcount := first.count_openAfter hopen others
      have hmore := h others hothers hnil
      omega

/-- A token of the first node satisfies a statement about the number of lists that are open before
it, the token itself and the tokens after it. As many as `around` lists of the node are open before
the tokens. -/
def SomeToken (holds : Nat → Token → List Token → Prop) (around : Nat) (tokens : List Token) :
    Prop :=
  ∃ before token after depth, tokens = before ++ token :: after ∧ StaysOpen around before ∧
    openings before + around = closings before + depth ∧ holds depth token after

section SomeToken

variable {holds : Nat → Token → List Token → Prop} {around : Nat}

/-- Nothing holds of a token where there is none. -/
theorem not_someToken_nil : ¬SomeToken holds around [] := by
  rintro ⟨before, token, after, depth, htokens, -⟩
  simp at htokens

/-- It is the first token, or a later one if the first does not end the node. -/
theorem someToken_cons {token : Token} {tokens : List Token} :
    SomeToken holds around (token :: tokens) ↔
      holds around token tokens ∨
        0 < token.openAfter around ∧ SomeToken holds (token.openAfter around) tokens := by
  constructor
  · rintro ⟨before, other, after, depth, htokens, hstays, hcount, hholds⟩
    cases before with
    | nil =>
      obtain ⟨rfl, rfl⟩ := List.cons.inj htokens
      obtain rfl : around = depth := by simpa [openings, closings] using hcount
      exact Or.inl hholds
    | cons first before =>
      obtain ⟨rfl, rfl⟩ := List.cons.inj htokens
      obtain ⟨hopen, hstays⟩ := staysOpen_cons.mp hstays
      have hcons := token.count_openAfter hopen before
      exact Or.inr ⟨hopen, before, other, after, depth, rfl, hstays, by omega, hholds⟩
  · rintro (hholds | ⟨hopen, before, other, after, depth, rfl, hstays, hcount, hholds⟩)
    · refine ⟨[], token, tokens, around, rfl, ?_, rfl, hholds⟩
      intro taken htaken hne
      exact absurd (List.prefix_nil.mp htaken) hne
    · have hcons := token.count_openAfter hopen before
      exact ⟨token :: before, other, after, depth, rfl, staysOpen_cons.mpr ⟨hopen, hstays⟩,
        by omega, hholds⟩

end SomeToken

/-- A list opens at a depth if some token opens one there. -/
theorem opensAt_iff_someToken {around depth offset : Nat} {tokens : List Token} :
    OpensAt around depth offset tokens ↔
      SomeToken (fun lists token _ => lists = depth ∧ token.kind = .opening ∧
        token.offset = offset) around tokens := by
  constructor
  · rintro ⟨before, token, after, htokens, hkind, hoffset, hstays, hcount⟩
    exact ⟨before, token, after, depth, htokens, hstays, hcount, rfl, hkind, hoffset⟩
  · rintro ⟨before, token, after, _, htokens, hstays, hcount, rfl, hkind, hoffset⟩
    exact ⟨before, token, after, htokens, hkind, hoffset, hstays, hcount⟩

/-- No list opens where there are no tokens. -/
theorem not_opensAt_nil (around depth offset : Nat) : ¬OpensAt around depth offset [] := by
  rw [opensAt_iff_someToken]
  exact not_someToken_nil

/-- A list is opened by the first token, or later if that does not end the node. -/
theorem opensAt_cons {around depth offset : Nat} {token : Token} {tokens : List Token} :
    OpensAt around depth offset (token :: tokens) ↔
      token.symbol = .opening ∧ around = depth ∧ token.offset = offset ∨
      0 < token.openAfter around ∧ OpensAt (token.openAfter around) depth offset tokens := by
  simp only [opensAt_iff_someToken, someToken_cons, Token.symbol_eq_opening_iff, and_left_comm]

section Symbols

variable {around depth offset : Nat} {token : Token} {tokens : List Token}

/-- Past an opening parenthesis a list opens there or one list deeper. -/
theorem opensAt_cons_opening (hsymbol : token.symbol = .opening) :
    OpensAt around depth offset (token :: tokens) ↔
      around = depth ∧ token.offset = offset ∨ OpensAt (around + 1) depth offset tokens := by
  simp [opensAt_cons, Token.openAfter_opening hsymbol, hsymbol]

/-- Past a closing parenthesis a list opens only if it did not close the outermost one. -/
theorem opensAt_cons_closing (hsymbol : token.symbol = .closing) :
    OpensAt around depth offset (token :: tokens) ↔
      1 < around ∧ OpensAt (around - 1) depth offset tokens := by
  rw [opensAt_cons, Token.openAfter_closing hsymbol, Nat.sub_pos_iff_lt]
  simp [hsymbol]

/-- Past an atom a list opens only if some list is open. -/
theorem opensAt_cons_atom {text : String} (hsymbol : token.symbol = .atom text) :
    OpensAt around depth offset (token :: tokens) ↔
      0 < around ∧ OpensAt around depth offset tokens := by
  simp [opensAt_cons, Token.openAfter_atom hsymbol, hsymbol]

end Symbols

/-- A list that is too deep has at least as many `(` in front of it as lists around it. -/
theorem OpensAt.depth_lt_openings {depth offset : Nat} {tokens : List Token}
    (h : OpensAt 0 depth offset tokens) : depth < openings tokens := by
  obtain ⟨before, token, after, rfl, hkind, -, -, hcount⟩ := h
  simp only [openings, List.countP_append, List.countP_cons, hkind] at hcount ⊢
  simp
  omega

/-- Lists that are open around some others stay open while the others are. -/
theorem Token.openAfter_add {around : Nat} (hopen : 0 < around) (token : Token) (more : Nat) :
    token.openAfter (around + more) = token.openAfter around + more := by
  cases hsymbol : token.symbol with
  | opening =>
    rw [openAfter_opening hsymbol, openAfter_opening hsymbol, Nat.add_right_comm]
  | closing =>
    rw [openAfter_closing hsymbol, openAfter_closing hsymbol, Nat.sub_add_comm hopen]
  | atom text => rw [openAfter_atom hsymbol, openAfter_atom hsymbol]

/-- A token of a list that is open inside of others leaves the others open. -/
theorem Token.openAfter_inside (token : Token) (around inside : Nat) :
    token.openAfter (around + (inside + 1)) = around + token.openAfter (inside + 1) := by
  rw [Nat.add_comm, token.openAfter_add inside.succ_pos, Nat.add_comm]

/-- A token inside of more lists than it can close is never the last one of the node. -/
theorem someToken_cons_inside {holds : Nat → Token → List Token → Prop} {around inside : Nat}
    (haround : 0 < around) {token : Token} {tokens : List Token} :
    SomeToken holds (around + (inside + 1)) (token :: tokens) ↔
      holds (around + (inside + 1)) token tokens ∨
        SomeToken holds (around + token.openAfter (inside + 1)) tokens := by
  have hopen : 0 < around + token.openAfter (inside + 1) := Nat.add_pos_left haround _
  rw [someToken_cons, token.openAfter_inside, and_iff_right hopen]

/-- A `(` leaves a list open. -/
theorem Token.symbol_ne_opening {token : Token} {around : Nat} (hend : token.openAfter around = 0) :
    token.symbol ≠ .opening := by
  intro hsymbol
  rw [openAfter_opening hsymbol] at hend
  cases hend

/-! ### Runs of a reader -/

namespace Reading

/-- The runs that read one node, token by token. As many lists as given are open inside of the open
lists, because one of these lists is passed over. -/
inductive Runs (limit : Nat) : Nat → List OpenList → List Token → Reading → Prop
  /-- The tokens have ended. -/
  | stops (passed : Nat) (openLists : List OpenList) :
      Runs limit passed openLists [] (closeAll none openLists)
  /-- A token ends the node, or it is a `)` where no list is open. -/
  | ends {openLists : List OpenList} {token : Token} (tokens : List Token) (node : Option Node)
      (hlast : openLists.length ≤ 1) (hend : token.openAfter openLists.length = 0) :
      Runs limit 0 openLists (token :: tokens) ⟨node, [], tokens⟩
  /-- A list is opened. -/
  | opens {openLists : List OpenList} {token : Token} {tokens : List Token} {reading : Reading}
      (hsymbol : token.symbol = .opening) (hroom : openLists.length < limit)
      (h : Runs limit 0 (.start token.offset :: openLists) tokens reading) :
      Runs limit 0 openLists (token :: tokens) reading
  /-- A list is too deep. -/
  | full {openLists : List OpenList} {token : Token} {tokens : List Token} {reading : Reading}
      (hsymbol : token.symbol = .opening) (hfull : openLists.length = limit)
      (h : Runs limit 1 openLists tokens reading) :
      Runs limit 0 openLists (token :: tokens) (note (.nestingTooDeep token.offset) reading)
  /-- A list is closed and becomes an item of the one around it. -/
  | closes {inner parent : OpenList} {outer : List OpenList} {token : Token} {tokens : List Token}
      {reading : Reading} (hsymbol : token.symbol = .closing)
      (h : Runs limit 0 (parent.push inner.node :: outer) tokens reading) :
      Runs limit 0 (inner :: parent :: outer) (token :: tokens) reading
  /-- An atom becomes an item of the innermost list. -/
  | item {inner : OpenList} {outer : List OpenList} {token : Token} {tokens : List Token}
      {text : String} {reading : Reading} (hsymbol : token.symbol = .atom text)
      (h : Runs limit 0 (inner.push (.atom text) :: outer) tokens reading) :
      Runs limit 0 (inner :: outer) (token :: tokens) reading
  /-- A token of a list that is passed over only counts. -/
  | passes {passed : Nat} {inner : OpenList} {outer : List OpenList} {token : Token}
      {tokens : List Token} {reading : Reading} (hfull : (inner :: outer).length = limit)
      (h : Runs limit (token.openAfter (passed + 1)) (inner :: outer) tokens reading) :
      Runs limit (passed + 1) (inner :: outer) (token :: tokens) reading

/-- While a list is passed over, its parentheses are counted. -/
private theorem advance_passed_openAfter (limit passed : Nat) (inner : OpenList)
    (outer : List OpenList) (token : Token) (tokens : List Token) :
    advance limit (passed + 1) (inner :: outer) (token :: tokens) =
      advance limit (token.openAfter (passed + 1)) (inner :: outer) tokens := by
  cases hsymbol : token.symbol with
  | opening => rw [advance_passed_opening limit passed hsymbol, Token.openAfter_opening hsymbol]
  | closing =>
    rw [advance_passed_closing limit passed hsymbol, Token.openAfter_closing hsymbol,
      Nat.add_sub_cancel]
  | atom text => rw [advance_passed_atom limit passed hsymbol, Token.openAfter_atom hsymbol]

/-- A reader runs token by token. It has no more open lists than its limit, and a list that is
passed over is inside of as many. -/
theorem runs_advance {limit passed : Nat} {openLists : List OpenList} (hlimit : 0 < limit)
    (hlength : openLists.length ≤ limit) (hpassed : 0 < passed → openLists.length = limit)
    (tokens : List Token) :
    Runs limit passed openLists tokens (advance limit passed openLists tokens) := by
  induction tokens generalizing passed openLists with
  | nil => exact .stops passed openLists
  | cons token tokens ih =>
    cases passed with
    | zero =>
      cases hsymbol : token.symbol with
      | opening =>
        by_cases hroom : openLists.length < limit
        · rw [advance_opening hsymbol hroom]
          exact .opens hsymbol hroom (ih (by rw [List.length_cons]; omega) (by omega))
        · rw [advance_opening_full hsymbol hroom]
          have hfull : openLists.length = limit := by omega
          exact .full hsymbol hfull (ih hlength fun _ => hfull)
      | closing =>
        rcases openLists with - | ⟨inner, - | ⟨parent, outer⟩⟩
        · rw [advance_unmatched limit hsymbol]
          exact .ends tokens none (by simp) (Token.openAfter_closing hsymbol 0)
        · rw [advance_closing limit hsymbol]
          exact .ends tokens (some inner.node) (by simp) (Token.openAfter_closing hsymbol 1)
        · rw [advance_closing limit hsymbol]
          have hless : (parent.push inner.node :: outer).length ≤ limit := by
            simp only [List.length_cons] at hlength ⊢
            omega
          exact .closes hsymbol (ih hless (by omega))
      | atom text =>
        rw [advance_atom limit hsymbol]
        cases openLists with
        | nil => exact .ends tokens (some (.atom text)) (by simp) (Token.openAfter_atom hsymbol 0)
        | cons inner outer => exact .item hsymbol (ih hlength (by omega))
    | succ passed =>
      have hfull : openLists.length = limit := hpassed (by omega)
      obtain ⟨inner, outer, rfl⟩ : ∃ inner outer, openLists = inner :: outer :=
        List.exists_cons_of_length_pos (by omega)
      rw [advance_passed_openAfter]
      exact .passes hfull (ih hlength fun _ => hfull)

/-- One node is read by a run that starts without open lists. -/
theorem runs_readNode {limit : Nat} (hlimit : 0 < limit) (tokens : List Token) :
    Runs limit 0 [] tokens (readNode tokens limit) :=
  runs_advance hlimit (Nat.zero_le _) (by omega) tokens

/-- Closing all open lists at the end reports none as too deep. -/
theorem not_nestingTooDeep_mem_closeAll (offset : Nat) (item : Option Node)
    (openLists : List OpenList) :
    .nestingTooDeep offset ∉ (closeAll item openLists).anomalies := by
  induction openLists generalizing item with
  | nil => simp [closeAll]
  | cons inner outer ih => simpa [closeAll, note] using ih _

/-- A reader reports the lists that are opened while as many lists as its limit are open, whether it
builds the lists around them or passes over one of them. -/
theorem Runs.nestingTooDeep_mem_iff {limit passed offset : Nat} {openLists : List OpenList}
    {tokens : List Token} {reading : Reading} (h : Runs limit passed openLists tokens reading) :
    .nestingTooDeep offset ∈ reading.anomalies ↔
      OpensAt (openLists.length + passed) limit offset tokens := by
  induction h with
  | stops passed openLists =>
    have hnone := not_nestingTooDeep_mem_closeAll offset none openLists
    simp [hnone, not_opensAt_nil]
  | ends tokens node _ hend =>
    rw [Nat.add_zero, opensAt_cons, hend]
    simp [Token.symbol_ne_opening hend]
  | opens hsymbol hroom _ ih =>
    rw [ih, Nat.add_zero, Nat.add_zero, opensAt_cons_opening hsymbol, List.length_cons]
    simp [Nat.ne_of_lt hroom]
  | full hsymbol hfull _ ih =>
    rw [note, List.mem_cons, ih, Nat.add_zero, opensAt_cons_opening hsymbol]
    simp [hfull, eq_comm]
  | closes hsymbol _ ih =>
    rw [ih, opensAt_cons_closing hsymbol]
    simp
  | item hsymbol _ ih =>
    rw [ih, opensAt_cons_atom hsymbol]
    simp
  | @passes passed inner outer token tokens reading hfull _ ih =>
    have hlists : 0 < (inner :: outer).length := Nat.succ_pos _
    rw [ih, opensAt_iff_someToken, opensAt_iff_someToken, someToken_cons_inside hlists]
    simp [hfull]

end Reading

/-- What is reported about a text was met while it was cut into tokens, or when its first node was
read, or it stands in front of that node or follows it. -/
theorem mem_parse_anomalies {text : String} {anomaly : Anomaly} :
    anomaly ∈ (parse text).anomalies ↔
      anomaly ∈ (Token.scan text).anomalies ∨
        anomaly ∈ (readNode (Token.scan text).tokens).anomalies ∨
        anomaly ∈ unmatchedClose (Token.scan text).tokens ∨
        anomaly ∈ trailingTokens (readNode (Token.scan text).tokens).rest := by
  simp [parse, readRoot, Anomaly.inOrder]

/-- A text reports the lists of its first node that are opened while as many lists are open as the
depth limit allows. -/
theorem nestingTooDeep_mem_parse {text : String} {offset : Nat} :
    .nestingTooDeep offset ∈ (parse text).anomalies ↔
      OpensAt 0 maxDepth offset (Token.scan text).tokens := by
  have hread : .nestingTooDeep offset ∈ (readNode (Token.scan text).tokens).anomalies ↔
      OpensAt 0 maxDepth offset (Token.scan text).tokens :=
    (Reading.runs_readNode (by decide) _).nestingTooDeep_mem_iff
  rw [mem_parse_anomalies]
  simpa [Lexed.anomalies, mem_unmatchedClose_iff, mem_trailingTokens_iff] using hread

/-! ### The first list that is too deep -/

/-- Only a report of too deep nesting has an offset of that kind. -/
theorem Anomaly.tooDeep?_eq_some_iff {anomaly : Anomaly} {offset : Nat} :
    anomaly.tooDeep? = some offset ↔ anomaly = .nestingTooDeep offset := by
  cases anomaly <;> simp [tooDeep?]

/-- No such report is found exactly if there is none. -/
theorem findSome?_tooDeep?_eq_none_iff {anomalies : List Anomaly} :
    anomalies.findSome? Anomaly.tooDeep? = none ↔ ∀ offset, .nestingTooDeep offset ∉ anomalies := by
  rw [List.findSome?_eq_none_iff]
  constructor
  · intro h offset hoffset
    cases h _ hoffset
  · intro h anomaly hanomaly
    rw [Option.eq_none_iff_forall_ne_some]
    intro offset hoffset
    rw [Anomaly.tooDeep?_eq_some_iff] at hoffset
    exact h offset (hoffset ▸ hanomaly)

/-- Among anomalies in the order of their offsets, the first list that is too deep is recorded, and
none that is recorded comes before it. -/
private theorem le_of_findSome?_tooDeep? {anomalies : List Anomaly} {offset : Nat}
    (hsorted : anomalies.Pairwise fun first second => first.offset ≤ second.offset)
    (hfound : anomalies.findSome? Anomaly.tooDeep? = some offset) :
    .nestingTooDeep offset ∈ anomalies ∧
      ∀ other, .nestingTooDeep other ∈ anomalies → offset ≤ other := by
  obtain ⟨before, anomaly, after, rfl, hdeep, hbefore⟩ := List.findSome?_eq_some_iff.mp hfound
  obtain rfl := Anomaly.tooDeep?_eq_some_iff.mp hdeep
  rw [List.pairwise_append, List.pairwise_cons] at hsorted
  refine ⟨by simp, fun other hother => ?_⟩
  rw [List.mem_append, List.mem_cons] at hother
  rcases hother with hother | hother | hother
  · exact absurd (hbefore _ hother) (by simp [Anomaly.tooDeep?])
  · cases hother
    exact Nat.le_refl _
  · exact hsorted.2.1.1 _ hother

/-- Among anomalies in the order of their offsets, the first list that is too deep is the one with
the least offset. -/
theorem findSome?_tooDeep?_eq_some_iff {anomalies : List Anomaly} {offset : Nat}
    (hsorted : anomalies.Pairwise fun first second => first.offset ≤ second.offset) :
    anomalies.findSome? Anomaly.tooDeep? = some offset ↔
      .nestingTooDeep offset ∈ anomalies ∧
        ∀ other, .nestingTooDeep other ∈ anomalies → offset ≤ other := by
  refine ⟨le_of_findSome?_tooDeep? hsorted, fun ⟨hmem, hleast⟩ => ?_⟩
  cases hfound : anomalies.findSome? Anomaly.tooDeep? with
  | none => exact absurd hmem (findSome?_tooDeep?_eq_none_iff.mp hfound offset)
  | some first =>
    obtain ⟨hfirst, hle⟩ := le_of_findSome?_tooDeep? hsorted hfound
    rw [Nat.le_antisymm (hle _ hmem) (hleast _ hfirst)]

/-- Anomalies in order agree on the first list that is too deep if they agree on all of them. -/
theorem findSome?_tooDeep?_congr {anomalies others : List Anomaly}
    (hsorted : anomalies.Pairwise fun first second => first.offset ≤ second.offset)
    (hothers : others.Pairwise fun first second => first.offset ≤ second.offset)
    (h : ∀ offset, .nestingTooDeep offset ∈ anomalies ↔ .nestingTooDeep offset ∈ others) :
    anomalies.findSome? Anomaly.tooDeep? = others.findSome? Anomaly.tooDeep? := by
  ext offset
  rw [findSome?_tooDeep?_eq_some_iff hsorted, findSome?_tooDeep?_eq_some_iff hothers]
  simp only [h]

/-- The anomalies of a text are in the order of their offsets. -/
theorem pairwise_parse_anomalies (text : String) :
    (parse text).anomalies.Pairwise fun first second => first.offset ≤ second.offset := by
  have hsorted := @List.pairwise_mergeSort Anomaly
    (fun first second => decide (first.offset ≤ second.offset))
    (by simpa using fun _ _ _ => Nat.le_trans) (by simpa using fun _ _ => Nat.le_total _ _)
    ((Token.scan text).anomalies ++ (readRoot (Token.scan text).tokens).anomalies)
  simpa [parse, Anomaly.inOrder] using hsorted

end Menus
