import Menus.Proofs.Nesting
import Menus.Proofs.Acceptance
import Menus.Proofs.Partition
import Mathlib.Data.List.Nodup
import Mathlib.Data.List.Pairwise
import Mathlib.Data.List.Perm.Subperm

/-!
# The anomalies of a text

The anomalies of a text come from three places: the end of its tokens, the run that reads its first
node, and what is left after that. Each kind of them can be told from the text without a reader, by
counting parentheses and by following the brackets. No two are met at the same byte, but for a
bracket that is open at the end and is also the first token after the node; so sorting by offset
leaves nothing to chance.
-/

namespace Menus

/-! ### Brackets -/

/-- Whether what follows a character is inside of brackets. -/
def insideAfter (inside : Bool) (c : Char) : Bool := if inside then c ≠ ']' else c = '['

/-- The `[` at the given byte is outside of brackets, and no `]` comes after it. The characters
start at a given byte too, inside of brackets or not. -/
def LeavesOpen (inside : Bool) (start offset : Nat) (chars : List Char) : Prop :=
  ∃ before after, chars = before ++ '[' :: after ∧ before.foldl insideAfter inside = false ∧
    ']' ∉ after ∧ start + sizeInBytes before = offset

/-- No bracket is left open where no text is left. -/
theorem not_leavesOpen_nil (inside : Bool) (start offset : Nat) :
    ¬LeavesOpen inside start offset [] := by
  rintro ⟨before, after, hchars, -⟩
  simp at hchars

/-- A bracket is left open by the first character or by a later one. -/
theorem leavesOpen_cons {inside : Bool} {start offset : Nat} {c : Char} {chars : List Char} :
    LeavesOpen inside start offset (c :: chars) ↔
      c = '[' ∧ inside = false ∧ ']' ∉ chars ∧ start = offset ∨
        LeavesOpen (insideAfter inside c) (start + c.utf8Size) offset chars := by
  constructor
  · rintro ⟨before, after, hchars, hinside, hafter, hoffset⟩
    cases before with
    | nil =>
      obtain ⟨rfl, rfl⟩ := List.cons.inj hchars
      exact Or.inl ⟨rfl, hinside, hafter, hoffset⟩
    | cons first before =>
      obtain ⟨rfl, rfl⟩ := List.cons.inj hchars
      rw [sizeInBytes_cons, ← Nat.add_assoc] at hoffset
      exact Or.inr ⟨before, after, rfl, hinside, hafter, hoffset⟩
  · rintro (⟨rfl, hinside, hafter, hoffset⟩ | ⟨before, after, rfl, hinside, hafter, hoffset⟩)
    · exact ⟨[], chars, rfl, hinside, hafter, hoffset⟩
    · rw [Nat.add_assoc, ← sizeInBytes_cons] at hoffset
      exact ⟨c :: before, after, rfl, hinside, hafter, hoffset⟩

/-- Another character of an item does not change which bracket is open. -/
theorem Pending.openBracket?_push (pending : Pending) (offset : Nat) (c : Char) :
    (pending.push offset c).openBracket? = pending.openBracket? := by
  cases pending <;> rfl

/-- Scanning leaves the bracket open that is collected, if no `]` follows, or else a later one. -/
theorem openBracket_scanFrom_eq_some_iff {start offset : Nat} {pending : Pending}
    {chars : List Char} :
    (Token.scanFrom start pending chars).openBracket = some offset ↔
      pending.openBracket? = some offset ∧ ']' ∉ chars ∨
        LeavesOpen pending.openBracket?.isSome start offset chars := by
  fun_induction Token.scanFrom start pending chars with
  | case1 start pending => simp [not_leavesOpen_nil]
  | case2 start first reversed chars collected ih =>
    simp [Lexed.after, ih, leavesOpen_cons, Pending.openBracket?, insideAfter]
  | case3 start first reversed c chars collected hc ih =>
    simp [ih, leavesOpen_cons, collected, Pending.openBracket?, insideAfter, hc, Ne.symm hc]
  | case4 start pending chars hpending next ih =>
    simp [Lexed.after, ih, leavesOpen_cons, Pending.openBracket?, insideAfter, and_comm, next]
  | case5 start pending chars hpending next _ ih =>
    simp [Lexed.after, ih, leavesOpen_cons, Pending.openBracket?, insideAfter, next]
  | case6 start pending chars hpending next _ _ ih =>
    simp [Lexed.after, ih, leavesOpen_cons, Pending.openBracket?, insideAfter, next]
  | case7 start pending c chars hpending next hbracket _ _ _ ih =>
    simp [Lexed.after, ih, leavesOpen_cons, Pending.openBracket?, insideAfter, next, hbracket]
  | case8 start pending c chars hpending next hbracket _ _ _ ih =>
    rw [ih, Pending.openBracket?_push]
    simp [leavesOpen_cons, Pending.openBracket?, insideAfter, next, hbracket]

/-! ### Lists that are left open -/

/-- A list within the limit is opened at the given byte, and it is open to the end. -/
def OpensToEnd (limit offset around : Nat) (token : Token) (after : List Token) : Prop :=
  token.kind = .opening ∧ token.offset = offset ∧ around < limit ∧ StaysOpen 1 after

/-- The node ends with the token, and the given tokens are left. -/
def EndsBefore (rest : List Token) (around : Nat) (token : Token) (after : List Token) : Prop :=
  token.openAfter around = 0 ∧ after = rest

/-- Only an opening parenthesis can open a list that reaches to the end. -/
theorem not_opensToEnd {limit offset around : Nat} {token : Token} {tokens : List Token}
    (hsymbol : token.symbol ≠ .opening) : ¬OpensToEnd limit offset around token tokens :=
  fun hopens => hsymbol (Token.symbol_eq_opening_iff.mpr hopens.1)

/-- Past such a token, a list that reaches to the end is opened by a later one inside the same
list. -/
theorem someToken_opensToEnd_cons {limit offset around : Nat} {token : Token} {tokens : List Token}
    (hsymbol : token.symbol ≠ .opening) :
    SomeToken (OpensToEnd limit offset) around (token :: tokens) ↔
      0 < token.openAfter around ∧
        SomeToken (OpensToEnd limit offset) (token.openAfter around) tokens := by
  rw [someToken_cons, or_iff_right (not_opensToEnd hsymbol)]

namespace Reading

/-- One of the open lists is at the given byte and stays open after each of the tokens. The
innermost has as many lists open inside as given. -/
def KeepsOpen (offset : Nat) (tokens : List Token) : Nat → List OpenList → Prop
  | _, [] => False
  | inside, inner :: outer =>
    inner.offset = offset ∧ StaysOpen (inside + 1) tokens ∨
      KeepsOpen offset tokens (inside + 1) outer

section KeepsOpen

variable {offset inside : Nat} {openLists : List OpenList} {token : Token} {tokens : List Token}

/-- At the end of the tokens all lists that are open stay open. -/
theorem keepsOpen_nil :
    KeepsOpen offset [] inside openLists ↔ offset ∈ openLists.map OpenList.offset := by
  induction openLists generalizing inside with
  | nil => simp [KeepsOpen]
  | cons inner outer ih => simp [KeepsOpen, ih, StaysOpen, eq_comm]

/-- A token that closes none of the open lists counts for all of them. -/
theorem keepsOpen_cons (hinside : 0 < inside ∨ token.symbol ≠ .closing) :
    KeepsOpen offset (token :: tokens) inside openLists ↔
      KeepsOpen offset tokens (token.openAfter inside) openLists := by
  induction openLists generalizing inside with
  | nil => rfl
  | cons inner outer ih =>
    have hnext : token.openAfter (inside + 1) = token.openAfter inside + 1 := by
      obtain hopen | hclosing := hinside
      · exact token.openAfter_add hopen 1
      · cases hsymbol : token.symbol with
        | opening => simp only [Token.openAfter_opening hsymbol]
        | closing => exact absurd hsymbol hclosing
        | atom text => simp only [Token.openAfter_atom hsymbol]
    rw [KeepsOpen, KeepsOpen, ih (Or.inl inside.succ_pos), staysOpen_cons, hnext]
    simp

/-- A `)` closes the innermost of the open lists. -/
theorem keepsOpen_cons_closing (hsymbol : token.symbol = .closing) (inner : OpenList) :
    KeepsOpen offset (token :: tokens) 0 (inner :: openLists) ↔
      KeepsOpen offset tokens 0 openLists := by
  rw [KeepsOpen, keepsOpen_cons (Or.inl Nat.one_pos), staysOpen_cons]
  simp [Token.openAfter_closing hsymbol]

end KeepsOpen

/-- Closing all open lists at the end reports each of them. -/
theorem anomalies_closeAll (item : Option Node) (openLists : List OpenList) :
    (closeAll item openLists).anomalies = openLists.map fun list => .unclosedList list.offset := by
  induction openLists generalizing item with
  | nil => rfl
  | cons inner outer ih => rw [closeAll, note, ih, List.map_cons]

/-- Closing all open lists at the end leaves no tokens. -/
theorem rest_closeAll (item : Option Node) (openLists : List OpenList) :
    (closeAll item openLists).rest = [] := by
  induction openLists generalizing item with
  | nil => rfl
  | cons inner outer ih => exact ih _

namespace Runs

variable {limit passed offset : Nat} {openLists : List OpenList} {tokens : List Token}
  {reading : Reading}

/-- A run reports the lists that are open at the end of the tokens: those that were open before, and
those that it opens itself. -/
theorem unclosedList_mem_iff (h : Runs limit passed openLists tokens reading) :
    .unclosedList offset ∈ reading.anomalies ↔
      KeepsOpen offset tokens passed openLists ∨
        SomeToken (OpensToEnd limit offset) (openLists.length + passed) tokens := by
  induction h with
  | stops passed openLists =>
    rw [anomalies_closeAll, keepsOpen_nil]
    simp [not_someToken_nil]
  | @ends openLists token tokens node hlast hend =>
    have hkeeps : ¬KeepsOpen offset (token :: tokens) 0 openLists := by
      rcases openLists with - | ⟨inner, - | ⟨parent, outer⟩⟩
      · exact id
      · rw [KeepsOpen, staysOpen_cons]
        simp [KeepsOpen, show token.openAfter 1 = 0 from hend]
      · simp at hlast
    rw [Nat.add_zero, someToken_opensToEnd_cons (Token.symbol_ne_opening hend), hend]
    simp [hkeeps]
  | opens hsymbol hroom _ ih =>
    have hkind := Token.symbol_eq_opening_iff.mp hsymbol
    rw [ih, keepsOpen_cons (Or.inr (by simp [hsymbol])), someToken_cons, KeepsOpen, OpensToEnd]
    simp [Token.openAfter_opening hsymbol, hkind, hroom, OpenList.start, or_assoc, or_left_comm]
  | full hsymbol hfull _ ih =>
    rw [note, List.mem_cons, ih, keepsOpen_cons (Or.inr (by simp [hsymbol])), someToken_cons,
      OpensToEnd]
    simp [Token.openAfter_opening hsymbol, hfull]
  | closes hsymbol _ ih =>
    rw [ih, keepsOpen_cons_closing hsymbol, someToken_opensToEnd_cons (by simp [hsymbol])]
    simp [Token.openAfter_closing hsymbol, KeepsOpen, OpenList.push]
  | item hsymbol _ ih =>
    rw [ih, keepsOpen_cons (Or.inr (by simp [hsymbol])),
      someToken_opensToEnd_cons (by simp [hsymbol])]
    simp [Token.openAfter_atom hsymbol, KeepsOpen, OpenList.push]
  | @passes passed inner outer token tokens reading hfull _ ih =>
    have hlists : 0 < (inner :: outer).length := Nat.succ_pos _
    have hdeep : ¬OpensToEnd limit offset ((inner :: outer).length + (passed + 1)) token tokens :=
      fun hopens => absurd hopens.2.2.1 (by omega)
    rw [ih, keepsOpen_cons (Or.inl passed.succ_pos), someToken_cons_inside hlists,
      or_iff_right hdeep]

/-- What is left after a run is what comes after the end of its node. -/
theorem rest_eq_iff (h : Runs limit passed openLists tokens reading) {rest : List Token}
    (hrest : rest ≠ []) :
    reading.rest = rest ↔
      SomeToken (EndsBefore rest) (openLists.length + passed) tokens := by
  induction h with
  | stops passed openLists =>
    rw [rest_closeAll]
    simp [not_someToken_nil, hrest.symm]
  | ends tokens node _ hend =>
    rw [Nat.add_zero, someToken_cons, EndsBefore, hend]
    simp
  | opens hsymbol hroom _ ih =>
    rw [ih, someToken_cons, EndsBefore]
    simp [Token.openAfter_opening hsymbol]
  | full hsymbol hfull _ ih =>
    rw [note, ih, someToken_cons, EndsBefore]
    simp [Token.openAfter_opening hsymbol]
  | closes hsymbol _ ih =>
    rw [ih, someToken_cons, EndsBefore]
    simp [Token.openAfter_closing hsymbol]
  | item hsymbol _ ih =>
    rw [ih, someToken_cons, EndsBefore]
    simp [Token.openAfter_atom hsymbol]
  | @passes passed inner outer token tokens reading hfull _ ih =>
    have hlists : 0 < (inner :: outer).length := Nat.succ_pos _
    have hends : ¬EndsBefore rest ((inner :: outer).length + (passed + 1)) token tokens := by
      rw [EndsBefore, token.openAfter_inside]
      omega
    rw [ih, someToken_cons_inside hlists, or_iff_right hends]

/-- A run that leaves a list open takes all tokens. -/
theorem rest_eq_nil (h : Runs limit passed openLists tokens reading)
    (hopen : .unclosedList offset ∈ reading.anomalies) : reading.rest = [] := by
  induction h with
  | stops passed openLists => exact rest_closeAll none openLists
  | ends => cases hopen
  | opens _ _ _ ih => exact ih hopen
  | full _ _ _ ih => exact ih (by simpa [note] using hopen)
  | closes _ _ ih => exact ih hopen
  | item _ _ ih => exact ih hopen
  | passes _ _ ih => exact ih hopen

/-- The anomalies of a run are at different places, which are those of open lists or of tokens, and
none is at a token that is left. -/
theorem offsets_subperm (h : Runs limit passed openLists tokens reading) :
    (reading.anomalies.map Anomaly.offset ++ reading.rest.map Token.offset).Subperm
      (openLists.map OpenList.offset ++ tokens.map Token.offset) := by
  induction h with
  | stops passed openLists =>
    rw [anomalies_closeAll, rest_closeAll, List.map_map]
    exact List.Subperm.refl _
  | ends tokens node _ _ =>
    exact ((List.sublist_cons_self _ _).trans (List.sublist_append_right _ _)).subperm
  | opens _ _ _ ih => exact ih.trans List.perm_middle.symm.subperm
  | full _ _ _ ih => exact ((List.subperm_cons _).mpr ih).trans List.perm_middle.symm.subperm
  | closes _ _ ih =>
    exact ih.trans ((List.sublist_cons_self _ _).append (List.sublist_cons_self _ _)).subperm
  | item _ _ ih => exact ih.trans ((List.sublist_cons_self _ _).append_left _).subperm
  | passes _ _ ih => exact ih.trans ((List.sublist_cons_self _ _).append_left _).subperm

end Runs

end Reading

/-! ### Places -/

/-- What is reported as trailing stands at one of the tokens. -/
theorem offsets_trailingTokens_sublist (tokens : List Token) :
    ((trailingTokens tokens).map Anomaly.offset).Sublist (tokens.map Token.offset) := by
  cases tokens with
  | nil => exact List.Sublist.refl _
  | cons token tokens => exact List.singleton_sublist.mpr List.mem_cons_self

/-- The anomalies of the root are at different places if the tokens are. Where a close is unmatched
nothing is read, and what is left are the tokens after it. -/
theorem nodup_offsets_readRoot {tokens : List Token} (htokens : (tokens.map Token.offset).Nodup) :
    ((readRoot tokens).anomalies.map Anomaly.offset).Nodup := by
  have hread := (Reading.runs_readNode (show 0 < maxDepth by decide) tokens).offsets_subperm
  obtain ⟨offsets, hperm, hsublist⟩ := hread
  have hnodup := hperm.nodup_iff.mp (htokens.sublist hsublist)
  have htrailing := offsets_trailingTokens_sublist (readNode tokens).rest
  by_cases hfirst : unmatchedClose tokens = []
  · rw [readRoot, hfirst, List.append_nil, List.map_append]
    exact hnodup.sublist (htrailing.append_left _)
  · obtain ⟨anomaly, hanomaly⟩ := List.exists_mem_of_ne_nil _ hfirst
    obtain ⟨token, others, rfl, hclosing, -⟩ := mem_unmatchedClose_iff.mp hanomaly
    have hnone : readNode (token :: others) = ⟨none, [], others⟩ :=
      Reading.advance_unmatched maxDepth (Token.symbol_eq_closing_iff.mpr hclosing)
    rw [hnone] at htrailing
    rw [readRoot, hnone, unmatchedClose, if_pos hclosing]
    exact htokens.sublist (htrailing.cons_cons token.offset)

namespace Anomaly

/-- Sorting the anomalies loses none of them. -/
theorem inOrder_perm (anomalies : List Anomaly) : (inOrder anomalies).Perm anomalies :=
  List.mergeSort_perm _ _

/-- Sorting keeps what holds between anomalies that are at one place. Sorting keeps the order of
what has one offset. -/
theorem pairwise_inOrder {anomalies : List Anomaly} {holds : Anomaly → Anomaly → Prop}
    (hnodup : anomalies.Nodup)
    (hholds : anomalies.Pairwise fun first second => first.offset = second.offset →
      holds first second) :
    (inOrder anomalies).Pairwise fun first second => first.offset = second.offset →
      holds first second := by
  rw [List.pairwise_iff_forall_sublist] at hholds ⊢
  intro first second hsublist hoffset
  have hsorted : (inOrder anomalies).Nodup := (inOrder_perm anomalies).nodup_iff.mpr hnodup
  have hne : first ≠ second := by
    rintro rfl
    simpa using hsorted.sublist hsublist
  have hmem : ∀ anomaly ∈ [first, second], anomaly ∈ anomalies := fun anomaly hanomaly =>
    (inOrder_perm anomalies).mem_iff.mp (hsublist.subset hanomaly)
  have hpairs : anomalies.Pairwise fun first second =>
      [first, second].Sublist anomalies ∨ [second, first].Sublist anomalies :=
    List.pairwise_iff_forall_sublist.mpr Or.inl
  have hsymm : Std.Symm fun first second : Anomaly =>
      [first, second].Sublist anomalies ∨ [second, first].Sublist anomalies :=
    ⟨fun _ _ => Or.symm⟩
  obtain hbefore | hbefore := hpairs.forall (hmem first (by simp)) (hmem second (by simp)) hne
  · exact hholds hbefore hoffset
  · have hkept : [second, first].Sublist (inOrder anomalies) :=
      List.pair_sublist_mergeSort (by simpa using fun _ _ _ => Nat.le_trans)
        (by simpa using fun _ _ => Nat.le_total _ _) (by simp [hoffset]) hbefore
    have hsame := (hsorted.perm_iff_eq_of_sublist hsublist hkept).mp (List.Perm.swap _ _ _)
    exact absurd (List.cons.inj hsame).1 hne

end Anomaly

/-! ### The report of a text -/

/-- The anomalies of a node are those of its lists. -/
theorem readNode_anomalies_cases {tokens : List Token} {anomaly : Anomaly}
    (hanomaly : anomaly ∈ (readNode tokens).anomalies) :
    (∃ offset, anomaly = .nestingTooDeep offset) ∨ ∃ offset, anomaly = .unclosedList offset := by
  rw [readNode_eq_readFreely (by decide)] at hanomaly
  exact limitAnomalies_cases hanomaly

section Text

variable {text : String} {offset count : Nat}

/-- An unterminated bracket is reported exactly where the scan ends inside one. -/
theorem unterminatedBracket_mem_parse :
    .unterminatedBracket offset ∈ (parse text).anomalies ↔
      (Token.scan text).openBracket = some offset := by
  have hread : .unterminatedBracket offset ∉ (readNode (Token.scan text).tokens).anomalies :=
    fun h => by simpa using readNode_anomalies_cases h
  rw [mem_parse_anomalies]
  simp [Lexed.anomalies, mem_unmatchedClose_iff, mem_trailingTokens_iff, hread]

/-- An unmatched close is reported exactly when the text starts with it. -/
theorem unmatchedClose_mem_parse :
    .unmatchedClose offset ∈ (parse text).anomalies ↔
      ∃ token others, (Token.scan text).tokens = token :: others ∧ token.kind = .closing ∧
        token.offset = offset := by
  have hread : .unmatchedClose offset ∉ (readNode (Token.scan text).tokens).anomalies :=
    fun h => by simpa using readNode_anomalies_cases h
  rw [mem_parse_anomalies]
  simp [Lexed.anomalies, mem_unmatchedClose_iff, mem_trailingTokens_iff, hread, @eq_comm _ offset]

/-- Trailing tokens are reported with the place of the first and their number. -/
theorem trailingTokens_mem_parse :
    .trailingTokens offset count ∈ (parse text).anomalies ↔
      ∃ token others, (readNode (Token.scan text).tokens).rest = token :: others ∧
        token.offset = offset ∧ others.length + 1 = count := by
  have hread : .trailingTokens offset count ∉ (readNode (Token.scan text).tokens).anomalies :=
    fun h => by simpa using readNode_anomalies_cases h
  rw [mem_parse_anomalies]
  simp [Lexed.anomalies, mem_unmatchedClose_iff, mem_trailingTokens_iff, hread, @eq_comm _ offset,
    @eq_comm _ count]

/-- Lists that are left open are reported only by reading the first node. -/
theorem unclosedList_mem_parse :
    .unclosedList offset ∈ (parse text).anomalies ↔
      .unclosedList offset ∈ (readNode (Token.scan text).tokens).anomalies := by
  rw [mem_parse_anomalies]
  simp [Lexed.anomalies, mem_unmatchedClose_iff, mem_trailingTokens_iff]

/-- What the root of a text reports is what is left, or it stands at a parenthesis. -/
theorem exists_parenthesis {anomaly : Anomaly}
    (hanomaly : anomaly ∈ (readRoot (Token.scan text).tokens).anomalies) :
    (∃ offset count, anomaly = .trailingTokens offset count) ∨
      ∃ token ∈ (Token.scan text).tokens, token.kind ≠ .bracketed ∧
        token.offset = anomaly.offset := by
  rw [readRoot, List.mem_append, List.mem_append] at hanomaly
  obtain (hanomaly | hanomaly) | hanomaly := hanomaly
  · obtain ⟨offset, rfl⟩ | ⟨offset, rfl⟩ := readNode_anomalies_cases hanomaly
    · have hrun := Reading.runs_readNode (show 0 < maxDepth by decide) (Token.scan text).tokens
      obtain ⟨before, token, after, htokens, hkind, hoffset, -⟩ :=
        hrun.nestingTooDeep_mem_iff.mp hanomaly
      exact Or.inr ⟨token, by simp [htokens], by simp [hkind], hoffset⟩
    · have hrun := Reading.runs_readNode (show 0 < maxDepth by decide) (Token.scan text).tokens
      obtain hkeeps | ⟨before, token, after, depth, htokens, -, -, hkind, hoffset, -⟩ :=
        hrun.unclosedList_mem_iff.mp hanomaly
      · exact hkeeps.elim
      · exact Or.inr ⟨token, by simp [htokens], by simp [hkind], hoffset⟩
  · obtain ⟨token, others, htokens, hclosing, rfl⟩ := mem_unmatchedClose_iff.mp hanomaly
    exact Or.inr ⟨token, by simp [htokens], by simp [hclosing], rfl⟩
  · exact Or.inl (eq_of_mem_trailingTokens hanomaly)

/-- Tokens are at different places. -/
theorem nodup_offsets_scan (text : String) : ((Token.scan text).tokens.map Token.offset).Nodup :=
  List.pairwise_map.mpr ((partitions_scan text).ordered.imp fun h => Nat.ne_of_lt h.1)

/-- A bracket that is left open is at a bracketed token. -/
theorem exists_bracketed (hopen : (Token.scan text).openBracket = some offset) :
    ∃ token ∈ (Token.scan text).tokens, token.kind = .bracketed ∧ token.offset = offset := by
  have hreported := (partitions_scan text).reported
  rw [Lexed.anomalies, hopen] at hreported
  have hmem : Anomaly.unterminatedBracket offset ∈
      ((Token.scan text).tokens.getLast?.toList.filter Token.isUnclosed).map
        (.unterminatedBracket ·.offset) := by
    rw [← hreported]
    simp
  obtain ⟨token, htoken, hoffset⟩ := List.mem_map.mp hmem
  rw [List.mem_filter, Option.mem_toList, Token.isUnclosed, decide_eq_true_eq] at htoken
  exact ⟨token, List.mem_of_getLast? htoken.1, htoken.2.1, by simpa using hoffset⟩

/-- A bracket that is left open is at the place of another anomaly only if that is what is left. -/
theorem eq_trailingTokens_of_offset_eq (hopen : (Token.scan text).openBracket = some offset)
    {anomaly : Anomaly} (hanomaly : anomaly ∈ (readRoot (Token.scan text).tokens).anomalies)
    (hoffset : offset = anomaly.offset) : ∃ count, anomaly = .trailingTokens offset count := by
  obtain ⟨other, count, rfl⟩ | ⟨token, htoken, hkind, hplace⟩ := exists_parenthesis hanomaly
  · exact ⟨count, by rw [hoffset]; rfl⟩
  · obtain ⟨bracket, hbracket, hbracketed, hat⟩ := exists_bracketed hopen
    have hsame := List.inj_on_of_nodup_map (nodup_offsets_scan text) hbracket htoken
      (hat.trans (hoffset.trans hplace.symm))
    exact absurd (hsame ▸ hbracketed) hkind

/-- What a text reports, before it is sorted. -/
theorem pairwise_met (text : String) :
    ((Token.scan text).anomalies ++ (readRoot (Token.scan text).tokens).anomalies).Pairwise
      fun first second => first ≠ second ∧ (first.offset = second.offset →
        ∃ offset count, first = .unterminatedBracket offset ∧
          second = .trailingTokens offset count) := by
  rw [List.pairwise_append]
  refine ⟨?_, ?_, fun first hfirst second hsecond => ?_⟩
  · rw [Lexed.anomalies]
    cases (Token.scan text).openBracket <;> simp
  · refine (List.pairwise_map.mp (nodup_offsets_readRoot (nodup_offsets_scan text))).imp ?_
    intro first second hne
    exact ⟨fun heq => hne (by rw [heq]), fun hoffset => absurd hoffset hne⟩
  · rw [Lexed.anomalies, Option.mem_toList, Option.map_eq_some_iff] at hfirst
    obtain ⟨offset, hopen, rfl⟩ := hfirst
    refine ⟨fun heq => ?_, fun hoffset => ?_⟩
    · obtain ⟨count, hcount⟩ := eq_trailingTokens_of_offset_eq hopen hsecond (by rw [← heq]; rfl)
      rw [← heq] at hcount
      cases hcount
    · obtain ⟨count, hcount⟩ := eq_trailingTokens_of_offset_eq hopen hsecond hoffset
      exact ⟨offset, count, rfl, hcount⟩

end Text

/-- The anomalies of a text are exactly those that can be told from the text itself, each of them
once, in the order of their places. -/
structure Reports (text : String) (anomalies : List Anomaly) : Prop where
  /-- They are in the order of their places. -/
  sorted : anomalies.Pairwise fun first second => first.offset ≤ second.offset
  /-- Each is reported once. -/
  nodup : anomalies.Nodup
  /-- A bracket that is open at the end of the text. -/
  unterminatedBracket : ∀ offset, .unterminatedBracket offset ∈ anomalies ↔
    LeavesOpen false 0 offset text.toList
  /-- A `)` in front of the first node. -/
  unmatchedClose : ∀ offset, .unmatchedClose offset ∈ anomalies ↔
    ∃ token others, (Token.scan text).tokens = token :: others ∧ token.kind = .closing ∧
      token.offset = offset
  /-- The tokens after the first node, or after a `)` in front of it: where the first of them is,
  and how many there are. -/
  trailingTokens : ∀ offset count, .trailingTokens offset count ∈ anomalies ↔
    ∃ token others, SomeToken (EndsBefore (token :: others)) 0 (Token.scan text).tokens ∧
      token.offset = offset ∧ others.length + 1 = count
  /-- A list of the first node that is within the depth limit and is open at the end. -/
  unclosedList : ∀ offset, .unclosedList offset ∈ anomalies ↔
    SomeToken (OpensToEnd maxDepth offset) 0 (Token.scan text).tokens
  /-- A list of the first node that is just below the depth limit. -/
  nestingTooDeep : ∀ offset, .nestingTooDeep offset ∈ anomalies ↔
    OpensAt 0 maxDepth offset (Token.scan text).tokens
  /-- At most one bracket is open at the end. -/
  oneBracket : ∀ first second, .unterminatedBracket first ∈ anomalies →
    .unterminatedBracket second ∈ anomalies → first = second
  /-- There is at most one `)` in front. -/
  oneClose : ∀ first second, .unmatchedClose first ∈ anomalies →
    .unmatchedClose second ∈ anomalies → first = second
  /-- What is left is reported at most once. -/
  oneRest : ∀ first second count others, .trailingTokens first count ∈ anomalies →
    .trailingTokens second others ∈ anomalies → first = second ∧ count = others
  /-- If a list is left open, then nothing is left. -/
  exclusive : ∀ offset first count, .unclosedList offset ∈ anomalies →
    .trailingTokens first count ∉ anomalies
  /-- Two anomalies are at one place only if the first of the tokens that are left is a bracket that
  is open at the end; it is reported as open first. -/
  shared : anomalies.Pairwise fun first second => first.offset = second.offset →
    ∃ offset count, first = .unterminatedBracket offset ∧ second = .trailingTokens offset count

/-- **The report of a text is exact.** Whatever the text is, its brackets and its parentheses alone
decide what is reported about it. -/
theorem reports_parse (text : String) : Reports text (parse text).anomalies := by
  have hrun := Reading.runs_readNode (show 0 < maxDepth by decide) (Token.scan text).tokens
  have hmet := pairwise_met text
  have hnodup := hmet.imp And.left
  exact {
    sorted := pairwise_parse_anomalies text
    nodup := (Anomaly.inOrder_perm _).nodup_iff.mpr hnodup
    unterminatedBracket := fun offset => by
      rw [unterminatedBracket_mem_parse, Token.scan, openBracket_scanFrom_eq_some_iff]
      simp [Pending.openBracket?]
    unmatchedClose := fun offset => unmatchedClose_mem_parse
    trailingTokens := fun offset count => by
      rw [trailingTokens_mem_parse]
      simp only [hrun.rest_eq_iff (List.cons_ne_nil _ _)]
      rfl
    unclosedList := fun offset => by
      rw [unclosedList_mem_parse, hrun.unclosedList_mem_iff]
      exact or_iff_right id
    nestingTooDeep := fun offset => nestingTooDeep_mem_parse
    oneBracket := fun first second hfirst hsecond => by
      rw [unterminatedBracket_mem_parse] at hfirst hsecond
      exact Option.some.inj (hfirst.symm.trans hsecond)
    oneClose := fun first second hfirst hsecond => by
      obtain ⟨token, others, htokens, -, rfl⟩ := unmatchedClose_mem_parse.mp hfirst
      obtain ⟨token', others', htokens', -, rfl⟩ := unmatchedClose_mem_parse.mp hsecond
      rw [(List.cons.inj (htokens.symm.trans htokens')).1]
    oneRest := fun first second count others hfirst hsecond => by
      obtain ⟨token, rest, hrest, rfl, rfl⟩ := trailingTokens_mem_parse.mp hfirst
      obtain ⟨token', rest', hrest', rfl, rfl⟩ := trailingTokens_mem_parse.mp hsecond
      obtain ⟨rfl, rfl⟩ := List.cons.inj (hrest.symm.trans hrest')
      exact ⟨rfl, rfl⟩
    exclusive := fun offset first count hopen hfirst => by
      obtain ⟨token, rest, hrest, -⟩ := trailingTokens_mem_parse.mp hfirst
      rw [unclosedList_mem_parse] at hopen
      rw [hrun.rest_eq_nil hopen] at hrest
      cases hrest
    shared := Anomaly.pairwise_inOrder hnodup (hmet.imp And.right) }

end Menus
