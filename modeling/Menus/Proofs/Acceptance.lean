import Menus.Proofs.DepthLimit

/-!
# Which tokens are read without an anomaly

Reading is lenient: whatever the tokens are, a tree comes out, or there is a reason for none. What
it adds and what it leaves is counted by the anomalies. So as long as no list is too deep, the
tokens can be recovered from the tree and the anomalies, up to what a symbol does not tell; and
there is no anomaly exactly when the tokens are the symbols of a tree within the depth limit.
-/

namespace Menus

namespace Anomaly

/-- The anomaly of a list without a `)`. -/
def isUnclosedList : Anomaly → Bool
  | .unclosedList _ => true
  | _ => false

/-- The number of tokens that are left over, and nothing for any other anomaly. -/
def trailing? : Anomaly → Option Nat
  | .trailingTokens _ count => some count
  | _ => none

end Anomaly

/-- How many lists lack a `)`. -/
def unclosedCount (anomalies : List Anomaly) : Nat := anomalies.countP Anomaly.isUnclosedList

/-- How many tokens are left over: none if no anomaly says so. -/
def trailingCount (anomalies : List Anomaly) : Nat :=
  (anomalies.findSome? Anomaly.trailing?).getD 0

/-! ### What the anomalies of a root count -/

/-- A limited reading records lists only. -/
theorem limitAnomalies_cases {limit : Nat} {places : List ListPlace} {anomaly : Anomaly}
    (hanomaly : anomaly ∈ limitAnomalies limit places) :
    (∃ offset, anomaly = .nestingTooDeep offset) ∨ ∃ offset, anomaly = .unclosedList offset := by
  rw [limitAnomalies, List.mem_append, tooDeep, leftOpen, List.mem_map, List.mem_map] at hanomaly
  rcases hanomaly with ⟨place, -, rfl⟩ | ⟨place, -, rfl⟩
  · exact Or.inl ⟨place.offset, rfl⟩
  · exact Or.inr ⟨place.offset, rfl⟩

/-- The root has the anomalies of its lists, that of a `)` in front, and that of what is left. -/
theorem readRoot_anomalies (tokens : List Token) :
    (readRoot tokens).anomalies = limitAnomalies maxDepth (readFreely tokens).lists ++
      unmatchedClose tokens ++ trailingTokens (readFreely tokens).rest := by
  have hread := readNode_eq_readFreely (show 0 < maxDepth by decide) tokens
  rw [readRoot, hread]

/-- The tokens that are left over are counted. -/
theorem trailingCount_readRoot (tokens : List Token) :
    trailingCount (readRoot tokens).anomalies = (readFreely tokens).rest.length := by
  have hlists : (limitAnomalies maxDepth (readFreely tokens).lists).findSome? Anomaly.trailing? =
      none := by
    rw [List.findSome?_eq_none_iff]
    intro anomaly hanomaly
    rcases limitAnomalies_cases hanomaly with ⟨offset, rfl⟩ | ⟨offset, rfl⟩ <;> rfl
  have hfirst : (unmatchedClose tokens).findSome? Anomaly.trailing? = none := by
    rw [List.findSome?_eq_none_iff]
    intro anomaly hanomaly
    obtain ⟨offset, rfl⟩ := eq_of_mem_unmatchedClose hanomaly
    rfl
  rw [trailingCount, readRoot_anomalies, List.findSome?_append, List.findSome?_append, hlists,
    hfirst]
  cases (readFreely tokens).rest <;> rfl

/-- The lists that are left open in two runs of anomalies add up. -/
theorem unclosedCount_append (first second : List Anomaly) :
    unclosedCount (first ++ second) = unclosedCount first + unclosedCount second :=
  List.countP_append

/-- The lists that lack a `)` are counted, unless they are too deep. -/
theorem unclosedCount_limitAnomalies {limit : Nat} {places : List ListPlace}
    (hdepth : ∀ place ∈ places, place.depth ≤ limit) :
    unclosedCount (limitAnomalies limit places) = missing places := by
  have hdeep : unclosedCount (tooDeep limit places) = 0 := by
    rw [unclosedCount, tooDeep, List.countP_map, List.countP_eq_zero]
    simp [Anomaly.isUnclosedList]
  have hopen : unclosedCount (leftOpen limit places) = missing places := by
    rw [unclosedCount, leftOpen, List.countP_map, List.countP_filter, missing]
    apply List.countP_congr
    intro place hplace
    simp [Anomaly.isUnclosedList, hdepth place hplace]
  rw [limitAnomalies, unclosedCount_append, hdeep, hopen, Nat.zero_add]

/-- Within the depth limit as many lists are reported open as close tokens are missing. -/
theorem unclosedCount_readRoot {tokens : List Token} {tree : Placed}
    (htree : (readFreely tokens).tree = some tree) (hdepth : tree.node.depth ≤ maxDepth) :
    unclosedCount (readRoot tokens).anomalies = missing (tree.lists 0) := by
  have hplaces : ∀ place ∈ tree.lists 0, place.depth ≤ maxDepth := by
    intro place hplace
    have hbounds := tree.depth_of_mem_lists 0 place hplace
    omega
  have hfirst : unclosedCount (unmatchedClose tokens) = 0 := by
    rw [unclosedCount, List.countP_eq_zero]
    intro anomaly hanomaly
    obtain ⟨offset, rfl⟩ := eq_of_mem_unmatchedClose hanomaly
    simp [Anomaly.isUnclosedList]
  have hrest : unclosedCount (trailingTokens (readFreely tokens).rest) = 0 := by
    rw [unclosedCount, List.countP_eq_zero]
    intro anomaly hanomaly
    obtain ⟨offset, count, rfl⟩ := eq_of_mem_trailingTokens hanomaly
    simp [Anomaly.isUnclosedList]
  rw [readRoot_anomalies, FreeReading.lists, htree, Option.elim_some, unclosedCount_append,
    unclosedCount_append, hfirst, hrest, unclosedCount_limitAnomalies hplaces, Nat.add_zero]

/-! ### Tokens and their root -/

/-- If no list is too deep, the root is the tree of an unlimited reading. -/
theorem readRoot_root {tokens : List Token}
    (hdeep : ∀ offset, .nestingTooDeep offset ∉ (readRoot tokens).anomalies) :
    (readRoot tokens).root = (readFreely tokens).tree.map Placed.node ∧
      ∀ tree, (readFreely tokens).tree = some tree → tree.node.depth ≤ maxDepth := by
  have hread := readNode_eq_readFreely (show 0 < maxDepth by decide) tokens
  have hdepth : ∀ tree, (readFreely tokens).tree = some tree → tree.node.depth ≤ maxDepth := by
    rw [← no_nestingTooDeep_iff]
    intro offset hoffset
    apply hdeep offset
    rw [readRoot_anomalies]
    exact List.mem_append_left _ (List.mem_append_left _ hoffset)
  refine ⟨?_, hdepth⟩
  have hroot : (readRoot tokens).root =
      (readFreely tokens).tree.bind (·.node.within? maxDepth) := by
    rw [readRoot, hread]
  rw [hroot]
  cases htree : (readFreely tokens).tree with
  | none => rfl
  | some tree => rw [Option.bind_some, Node.within?_eq_self (hdepth tree htree), Option.map_some]

/-- The tokens but for those that are left over, and the `)` that are missing, are the symbols of
the root. -/
theorem symbols_of_readRoot {tokens : List Token} {root : Node}
    (hdeep : ∀ offset, .nestingTooDeep offset ∉ (readRoot tokens).anomalies)
    (hroot : (readRoot tokens).root = some root) :
    (tokens.take (tokens.length - trailingCount (readRoot tokens).anomalies)).map Token.symbol ++
      List.replicate (unclosedCount (readRoot tokens).anomalies) .closing = root.symbols := by
  obtain ⟨hsame, hdepth⟩ := readRoot_root hdeep
  rw [hroot] at hsame
  obtain ⟨tree, htree, rfl⟩ := Option.map_eq_some_iff.mp hsame.symm
  obtain ⟨taken, htokens, hsymbols⟩ := readFreely_symbols htree
  have htake : ∀ {all rest : List Token}, all = taken ++ rest →
      all.take (all.length - rest.length) = taken := by
    rintro all rest rfl
    simp
  rw [trailingCount_readRoot, htake htokens, unclosedCount_readRoot htree (hdepth tree htree),
    hsymbols]

/-- Only from no tokens at all, or from a `)`, no root is read. -/
theorem no_readRoot {tokens : List Token}
    (hdeep : ∀ offset, .nestingTooDeep offset ∉ (readRoot tokens).anomalies)
    (hroot : (readRoot tokens).root = none) :
    tokens = [] ∨ ∃ token rest, tokens = token :: rest ∧ token.symbol = .closing := by
  rw [(readRoot_root hdeep).1, Option.map_eq_none_iff] at hroot
  cases tokens with
  | nil => exact Or.inl rfl
  | cons token rest =>
    refine Or.inr ⟨token, rest, rfl, ?_⟩
    cases hsymbol : token.symbol with
    | closing => rfl
    | opening => simp [readFreely, hsymbol] at hroot
    | atom text => simp [readFreely, hsymbol] at hroot

/-- Nothing is irregular exactly about the symbols of a tree within the depth limit. -/
theorem readRoot_eq_iff {tokens : List Token} {node : Node} :
    readRoot tokens = ⟨some node, []⟩ ↔
      tokens.map Token.symbol = node.symbols ∧ node.depth ≤ maxDepth := by
  constructor
  · intro hread
    have hdeep : ∀ offset, Anomaly.nestingTooDeep offset ∉ (readRoot tokens).anomalies := by
      simp [hread]
    have hroot : (readRoot tokens).root = some node := by rw [hread]
    have hsymbols := symbols_of_readRoot hdeep hroot
    refine ⟨?_, Reading.depth_le hroot⟩
    simpa [hread, trailingCount, unclosedCount] using hsymbols
  · rintro ⟨htokens, hdepth⟩
    exact readRoot_symbols hdepth htokens

/-- **Reading accepts its grammar, and accounts for every token of anything else.** Unless a list is
too deep, the tokens without those left over, followed by a `)` for each list that lacks one, are
the symbols of the root, and without a root there are no tokens or a `)` comes first. Conversely the
symbols of a tree within the depth limit are read as that tree, and what follows them is left. So a
tree is read without an anomaly exactly from its own symbols, if it is within the depth limit. -/
theorem readRoot_accounts_for_tokens :
    (∀ tokens, (∀ offset, .nestingTooDeep offset ∉ (readRoot tokens).anomalies) →
      (∀ root, (readRoot tokens).root = some root →
        (tokens.take (tokens.length - trailingCount (readRoot tokens).anomalies)).map
            Token.symbol ++
          List.replicate (unclosedCount (readRoot tokens).anomalies) .closing = root.symbols) ∧
      ((readRoot tokens).root = none →
        tokens = [] ∨ ∃ token rest, tokens = token :: rest ∧ token.symbol = .closing)) ∧
    (∀ (node : Node) tokens rest, node.depth ≤ maxDepth → tokens.map Token.symbol = node.symbols →
      readNode (tokens ++ rest) = ⟨some node, [], rest⟩) ∧
    ∀ (node : Node) tokens, readRoot tokens = ⟨some node, []⟩ ↔
      tokens.map Token.symbol = node.symbols ∧ node.depth ≤ maxDepth :=
  ⟨fun _ hdeep => ⟨fun _ => symbols_of_readRoot hdeep, no_readRoot hdeep⟩,
    fun _ _ rest => readNode_symbols rest, fun _ _ => readRoot_eq_iff⟩

/-- Two lists left open, a `)` in front, and a `)` that is left over. -/
theorem readRoot_accounts_for_unbalanced_tokens :
    (readRoot [.openingAt 0, ⟨.word, "a", 1⟩, .openingAt 3] =
        ⟨some (.list [.atom "a", .list []]), [.unclosedList 3, .unclosedList 0]⟩ ∧
      [.openingAt 0, ⟨.word, "a", 1⟩, .openingAt 3].map Token.symbol ++
          List.replicate 2 Symbol.closing =
        (Node.list [.atom "a", .list []]).symbols) ∧
    ((readRoot [.closingAt 0, .openingAt 1]).root = none ∧
      ∃ token rest, ([.closingAt 0, .openingAt 1] : List Token) = token :: rest ∧
        token.symbol = .closing) ∧
    readNode ([.openingAt 0, ⟨.bracketed, "[b c]", 1⟩, .closingAt 6] ++ [.closingAt 7]) =
      ⟨some (.list [.atom "[b c]"]), [], [.closingAt 7]⟩ := by
  obtain ⟨haccount, hread, -⟩ := readRoot_accounts_for_tokens
  have hopen : readRoot [.openingAt 0, ⟨.word, "a", 1⟩, .openingAt 3] =
      ⟨some (.list [.atom "a", .list []]), [.unclosedList 3, .unclosedList 0]⟩ := by decide
  have hclose : readRoot [.closingAt 0, .openingAt 1] =
      ⟨none, [.unmatchedClose 0, .trailingTokens 1 1]⟩ := by decide
  have hopenSymbols := (haccount _ (by simp [hopen])).1 _ (congrArg Parse.root hopen)
  have hcloseFirst := (haccount _ (by simp [hclose])).2 (congrArg Parse.root hclose)
  rw [hopen] at hopenSymbols
  refine ⟨⟨hopen, hopenSymbols⟩, ⟨by rw [hclose], ?_⟩, hread _ _ _ (by decide) (by decide)⟩
  exact hcloseFirst.resolve_left (by simp)

end Menus
