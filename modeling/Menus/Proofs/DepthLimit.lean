import Menus.Proofs.FreeReading
import Menus.Proofs.ReadRuns

/-!
# What the depth limit leaves out

Reading with a depth limit takes the same tokens as reading without one. Where a list is nested too
deeply it only counts parentheses, and the end of that list is where the reader without a limit ends
it too. So the tree is the one without a limit, cut off at that depth, and the anomalies are found
in the unlimited tree: one for each list just below the limit, and one for each list within it that
lacks a `)`.
-/

namespace Menus

/-! ### A tree cut off at a depth -/

namespace Node

mutual

/-- A tree without the lists that are nested deeper than a limit; nothing is left of a list when the
limit is zero. -/
def within? (limit : Nat) : Node → Option Node
  | .atom text => some (.atom text)
  | .list items =>
    match limit with
    | 0 => none
    | limit + 1 => some (.list (withinAll limit items))

/-- Some items without the lists that are nested deeper than a limit. -/
def withinAll (limit : Nat) : List Node → List Node
  | [] => []
  | item :: items => (item.within? limit).toList ++ withinAll limit items

end

/-- An atom is within every limit. -/
@[simp] theorem within?_atom (limit : Nat) (text : String) :
    (Node.atom text).within? limit = some (.atom text) := by
  rw [within?]

/-- No list is within a limit of zero. -/
@[simp] theorem within?_list_zero (items : List Node) : (Node.list items).within? 0 = none := by
  rw [within?]

/-- Items are cut at the limit one by one. -/
theorem withinAll_eq_filterMap (limit : Nat) (items : List Node) :
    withinAll limit items = items.filterMap (within? limit) := by
  induction items with
  | nil => rw [withinAll, List.filterMap_nil]
  | cons item items ih =>
    rw [withinAll, ih, List.filterMap_cons]
    cases item.within? limit <;> rfl

/-- Within any other limit a list keeps what is within one less of its items. -/
@[simp] theorem within?_list_succ (limit : Nat) (items : List Node) :
    (Node.list items).within? (limit + 1) = some (.list (items.filterMap (within? limit))) := by
  rw [within?, withinAll_eq_filterMap]

/-- A tree that is not nested too deeply is not cut off. -/
theorem within?_eq_self {node : Node} {limit : Nat} (hdepth : node.depth ≤ limit) :
    node.within? limit = some node := by
  induction node using byItems generalizing limit with
  | atom text => exact within?_atom limit text
  | list items ih =>
    rw [depth_list] at hdepth
    obtain ⟨room, rfl⟩ : ∃ room, limit = room + 1 := ⟨limit - 1, by omega⟩
    have hitems : items.filterMap (within? room) = items := by
      rw [List.filterMap_congr (g := some), List.filterMap_some]
      intro item hitem
      have hitem' := depth_le_depthOfAll hitem
      exact ih item hitem (by omega)
    rw [within?_list_succ, hitems]

end Node

/-! ### The lists of a tree by depth -/

namespace Placed

/-- The lists of a tree are deeper than all that is around the tree, and no deeper than the tree. -/
theorem depth_of_mem_lists (tree : Placed) (around : Nat) : ∀ place ∈ tree.lists around,
    around < place.depth ∧ place.depth ≤ around + tree.node.depth := by
  induction tree using byItems generalizing around with
  | atom text => simp
  | list offset closed items ih =>
    intro place hplace
    rw [lists_list, listsOfAll_eq_flatMap, List.mem_append, List.mem_flatMap,
      List.mem_singleton] at hplace
    rw [node_list, Node.depth_list]
    rcases hplace with ⟨item, hitem, hplace⟩ | rfl
    · have hinside := ih item hitem (around + 1) place hplace
      have hdepth := Node.depth_le_depthOfAll (List.mem_map_of_mem (f := node) hitem)
      omega
    · simp only
      omega

/-- Every list inside some lists is deeper than they are. -/
theorem lt_depth_of_mem_listsOfAll (items : List Placed) (around : Nat) :
    ∀ place ∈ listsOfAll around items, around < place.depth := by
  intro place hplace
  rw [listsOfAll_eq_flatMap, List.mem_flatMap] at hplace
  obtain ⟨item, -, hplace⟩ := hplace
  exact (item.depth_of_mem_lists around place hplace).1

/-- A tree has a list at each level down to its depth. -/
theorem exists_mem_lists (tree : Placed) (around : Nat) {level : Nat}
    (hlevel : level < tree.node.depth) :
    ∃ place ∈ tree.lists around, place.depth = around + level + 1 := by
  induction tree using byItems generalizing around level with
  | atom text => simp at hlevel
  | list offset closed items ih =>
    rw [lists_list]
    rw [node_list, Node.depth_list] at hlevel
    cases level with
    | zero => exact ⟨_, List.mem_append_right _ (List.mem_singleton_self _), rfl⟩
    | succ level =>
      obtain ⟨item, hitem, hdepth⟩ : ∃ item ∈ items, level < item.node.depth := by
        by_contra hnone
        have hle : Node.depthOfAll (items.map node) ≤ level := by
          rw [Node.depthOfAll_le_iff]
          intro inner hinner
          obtain ⟨item, hitem, rfl⟩ := List.mem_map.mp hinner
          exact Nat.le_of_not_lt fun hdeep => hnone ⟨item, hitem, hdeep⟩
        omega
      obtain ⟨place, hplace, hplaceDepth⟩ := ih item hitem (around + 1) hdepth
      refine ⟨place, ?_, by omega⟩
      rw [listsOfAll_eq_flatMap]
      exact List.mem_append_left _ (List.mem_flatMap.mpr ⟨item, hitem, hplace⟩)

end Placed

/-- The anomalies of the lists that are just below the limit. -/
def tooDeep (limit : Nat) (places : List ListPlace) : List Anomaly :=
  (places.filter fun place => place.depth = limit + 1).map fun place =>
    .nestingTooDeep place.offset

/-- The anomalies of the lists within the limit that lack a `)`. -/
def leftOpen (limit : Nat) (places : List ListPlace) : List Anomaly :=
  (places.filter fun place => place.closed = false ∧ place.depth ≤ limit).map fun place =>
    .unclosedList place.offset

section Anomalies

variable {limit : Nat}

/-- Among no lists none is too deep. -/
@[simp] theorem tooDeep_nil : tooDeep limit [] = [] := rfl

/-- Among no lists none is left open. -/
@[simp] theorem leftOpen_nil : leftOpen limit [] = [] := rfl

/-- The lists that are too deep among some and others come one after the other. -/
@[simp] theorem tooDeep_append (first second : List ListPlace) :
    tooDeep limit (first ++ second) = tooDeep limit first ++ tooDeep limit second := by
  simp [tooDeep]

/-- The lists that are left open among some and others come one after the other. -/
@[simp] theorem leftOpen_append (first second : List ListPlace) :
    leftOpen limit (first ++ second) = leftOpen limit first ++ leftOpen limit second := by
  simp [leftOpen]

/-- A list is reported as too deep just below the limit. -/
theorem tooDeep_singleton (place : ListPlace) :
    tooDeep limit [place] =
      if place.depth = limit + 1 then [.nestingTooDeep place.offset] else [] := by
  by_cases h : place.depth = limit + 1 <;> simp [tooDeep, h]

/-- A list is reported as left open if it is not closed and not below the limit. -/
theorem leftOpen_singleton (place : ListPlace) :
    leftOpen limit [place] =
      if place.closed = false ∧ place.depth ≤ limit then [.unclosedList place.offset] else [] := by
  by_cases h : place.closed = false ∧ place.depth ≤ limit <;> simp [leftOpen, h]

/-- Lists further below the limit are not met. -/
theorem tooDeep_eq_nil {places : List ListPlace}
    (hdeep : ∀ place ∈ places, limit + 1 < place.depth) : tooDeep limit places = [] := by
  rw [tooDeep, List.map_eq_nil_iff, List.filter_eq_nil_iff]
  intro place hplace
  have hdepth := hdeep place hplace
  rw [decide_eq_true_eq]
  omega

/-- Nothing is reported as left open among lists that are closed or below the limit. -/
theorem leftOpen_eq_nil {places : List ListPlace}
    (hkept : ∀ place ∈ places, place.closed = true ∨ limit < place.depth) :
    leftOpen limit places = [] := by
  rw [leftOpen, List.map_eq_nil_iff, List.filter_eq_nil_iff]
  intro place hplace
  rw [decide_eq_true_eq]
  rintro ⟨hopen, hdepth⟩
  rcases hkept place hplace with hclosed | hdeep
  · rw [hopen] at hclosed
    cases hclosed
  · omega

end Anomalies

/-- The anomalies of a reading with a limit. The lists that are left open end with the tokens, after
everything else. -/
def limitAnomalies (limit : Nat) (places : List ListPlace) : List Anomaly :=
  tooDeep limit places ++ leftOpen limit places

/-- The anomalies of lists that are closed come before those of later lists. -/
theorem limitAnomalies_append {limit : Nat} {first : List ListPlace}
    (hclosed : ∀ place ∈ first, place.closed = true) (second : List ListPlace) :
    limitAnomalies limit (first ++ second) =
      limitAnomalies limit first ++ limitAnomalies limit second := by
  have hfirst : leftOpen limit first = [] :=
    leftOpen_eq_nil fun place hplace => Or.inl (hclosed place hplace)
  simp [limitAnomalies, hfirst]

/-- A list within the limit adds an anomaly to those of its items if it is left open. -/
theorem limitAnomalies_within {limit around : Nat} (hroom : around < limit) (offset : Nat)
    (tokens : List Token) :
    limitAnomalies limit ((freeList offset tokens).lists around) =
      limitAnomalies limit (Placed.listsOfAll (around + 1) (freeItems tokens).items) ++
        if (freeItems tokens).closed then [] else [.unclosedList offset] := by
  have hdeep : tooDeep limit [⟨around + 1, offset, (freeItems tokens).closed⟩] = [] := by
    rw [tooDeep_singleton, if_neg (by simp only; omega)]
  have hopen : leftOpen limit [⟨around + 1, offset, (freeItems tokens).closed⟩] =
      if (freeItems tokens).closed then [] else [.unclosedList offset] := by
    have hdepth : around + 1 ≤ limit := hroom
    cases (freeItems tokens).closed <;> simp [leftOpen_singleton, hdepth]
  rw [lists_freeList, limitAnomalies, tooDeep_append, leftOpen_append, hdeep, hopen,
    List.append_nil, ← List.append_assoc, limitAnomalies]

/-- A list just below the limit is one anomaly, whatever is inside. -/
theorem limitAnomalies_beyond (limit offset : Nat) (tokens : List Token) :
    limitAnomalies limit ((freeList offset tokens).lists limit) = [.nestingTooDeep offset] := by
  have hinside := Placed.lt_depth_of_mem_listsOfAll (freeItems tokens).items (limit + 1)
  have hdeep : tooDeep limit (Placed.listsOfAll (limit + 1) (freeItems tokens).items) = [] :=
    tooDeep_eq_nil hinside
  have hopen : leftOpen limit ((freeList offset tokens).lists limit) = [] :=
    leftOpen_eq_nil fun place hplace =>
      Or.inr (Placed.depth_of_mem_lists _ limit place hplace).1
  rw [limitAnomalies, hopen, lists_freeList, tooDeep_append, hdeep, tooDeep_singleton, if_pos rfl]
  rfl

/-- Pushing some items and then others pushes them all. -/
theorem OpenList.pushAll_pushAll (first second : List Node) (openList : OpenList) :
    (openList.pushAll first).pushAll second = openList.pushAll (first ++ second) := by
  simp [pushAll]

/-! ### Both readers, token by token -/

namespace Reading

/-- Put several anomalies in front, in their order. -/
def noteAll (anomalies : List Anomaly) (reading : Reading) : Reading :=
  { reading with anomalies := anomalies ++ reading.anomalies }

/-- Noting no anomalies changes nothing. -/
@[simp] theorem noteAll_nil (reading : Reading) : noteAll [] reading = reading := rfl

/-- Noting some anomalies and then others notes them all. -/
theorem noteAll_append (first second : List Anomaly) (reading : Reading) :
    noteAll (first ++ second) reading = noteAll first (noteAll second reading) := by
  simp [noteAll]

/-- Noting a list of one anomaly notes that anomaly. -/
theorem noteAll_singleton (anomaly : Anomaly) (reading : Reading) :
    noteAll [anomaly] reading = note anomaly reading := rfl

/-- At the end of the tokens an inner list becomes an item of the list around it. -/
theorem closeAll_inner (inner parent : OpenList) (outer : List OpenList) :
    closeAll none (inner :: parent :: outer) =
      note (.unclosedList inner.offset) (closeAll none (parent.push inner.node :: outer)) := rfl

/-- Counting parentheses stops where the reader without a limit ends the list. -/
theorem advance_passed_items (limit passed : Nat) (inner : OpenList) (outer : List OpenList)
    (tokens : List Token) :
    advance limit (passed + 1) (inner :: outer) tokens =
      if (freeItems tokens).closed then
        advance limit passed (inner :: outer) (freeItems tokens).rest
      else closeAll none (inner :: outer) := by
  induction tokens using freeItems_induction generalizing passed with
  | nil => simp [freeItems_nil, advance]
  | closing token tokens hsymbol =>
    rw [advance_passed_closing limit passed hsymbol, freeItems_closing hsymbol, if_pos rfl]
  | atom token tokens text hsymbol ih =>
    rw [advance_passed_atom limit passed hsymbol, ih passed, freeItems_atom hsymbol]
  | opening token tokens hsymbol ihinner ihothers =>
    rw [advance_passed_opening limit passed hsymbol, ihinner (passed + 1),
      freeItems_opening hsymbol]
    cases hclosed : (freeItems tokens).closed with
    | true => rw [if_pos rfl, ihothers passed]
    | false => simp [freeItems_of_open hclosed]

/-- What is left of some items that are inside of as many lists as given. -/
def kept (limit around : Nat) (items : List Placed) : List Node :=
  (items.map Placed.node).filterMap (Node.within? (limit - around))

/-- What is kept of some items and others is kept of each. -/
theorem kept_append (limit around : Nat) (first second : List Placed) :
    kept limit around (first ++ second) = kept limit around first ++ kept limit around second := by
  simp [kept]

/-- A list within the limit keeps those of its items that are within the limit. -/
theorem within?_freeList {limit around : Nat} (hroom : around < limit) (offset : Nat)
    (tokens : List Token) :
    (freeList offset tokens).node.within? (limit - around) =
      some (.list (kept limit (around + 1) (freeItems tokens).items)) := by
  obtain ⟨room, hlimit⟩ : ∃ room, limit - around = room + 1 := ⟨limit - around - 1, by omega⟩
  have hinside : limit - (around + 1) = room := by omega
  rw [node_freeList, hlimit, Node.within?_list_succ, kept, hinside]

/-- Reading goes on with the items after a list, or all lists end with the tokens. -/
def afterList (limit : Nat) (inner : OpenList) (outer : List OpenList) (read : FreeItems) :
    Reading :=
  if read.closed then advance limit 0 (inner :: outer) read.rest else closeAll none (inner :: outer)

/-- Reading goes on after the list of some items, or all lists end with the tokens. -/
def afterItems (limit : Nat) (inner : OpenList) (outer : List OpenList) (read : FreeItems) :
    Reading :=
  if read.closed then resume limit inner.node outer read.rest else closeAll none (inner :: outer)

/-- After the outermost list its node is complete, whether it was closed or the tokens ended. -/
theorem afterItems_outermost (limit : Nat) (openList : OpenList) {read : FreeItems}
    (hrest : read.closed = false → read.rest = []) :
    afterItems limit openList [] read =
      ⟨some openList.node, if read.closed then [] else [.unclosedList openList.offset],
        read.rest⟩ := by
  rw [afterItems]
  cases hclosed : read.closed with
  | true => rfl
  | false =>
    rw [hrest hclosed]
    rfl

section Steps

variable {limit : Nat} {inner : OpenList} {outer : List OpenList} {token : Token}
  {tokens : List Token}

/-- A list within the limit becomes an item, if its own items are read as they should. -/
private theorem advance_list_within (hsymbol : token.symbol = .opening)
    (hroom : outer.length + 1 < limit)
    (hitems : advance limit 0 (.start token.offset :: inner :: outer) tokens =
      noteAll (limitAnomalies limit
          (Placed.listsOfAll (outer.length + 1 + 1) (freeItems tokens).items))
        (afterItems limit ((OpenList.start token.offset).pushAll
            (kept limit (outer.length + 1 + 1) (freeItems tokens).items)) (inner :: outer)
          (freeItems tokens))) :
    advance limit 0 (inner :: outer) (token :: tokens) =
      noteAll (limitAnomalies limit ((freeList token.offset tokens).lists (outer.length + 1)))
        (afterList limit (inner.pushAll (kept limit (outer.length + 1)
          [freeList token.offset tokens])) outer (freeItems tokens)) := by
  have hkept : kept limit (outer.length + 1) [freeList token.offset tokens] =
      [.list (kept limit (outer.length + 1 + 1) (freeItems tokens).items)] := by
    rw [kept, List.map_singleton, List.filterMap_cons_some (within?_freeList hroom _ tokens),
      List.filterMap_nil]
  have hnode := OpenList.node_pushAll_start
    (kept limit (outer.length + 1 + 1) (freeItems tokens).items) token.offset
  rw [advance_opening hsymbol (by rw [List.length_cons]; omega), hitems, hkept,
    limitAnomalies_within hroom, noteAll_append]
  cases hclosed : (freeItems tokens).closed with
  | true =>
    rw [afterItems, if_pos hclosed, resume, hnode, afterList, if_pos hclosed]
    rfl
  | false =>
    have hopen : ¬(freeItems tokens).closed = true := by simp [hclosed]
    rw [afterItems, if_neg hopen, closeAll_inner, hnode, afterList, if_neg hopen]
    rfl

/-- A list beyond the limit is passed over. -/
private theorem advance_list_beyond (hsymbol : token.symbol = .opening)
    (hfull : limit = outer.length + 1) :
    advance limit 0 (inner :: outer) (token :: tokens) =
      noteAll (limitAnomalies limit ((freeList token.offset tokens).lists (outer.length + 1)))
        (afterList limit (inner.pushAll (kept limit (outer.length + 1)
          [freeList token.offset tokens])) outer (freeItems tokens)) := by
  have hkept : kept limit (outer.length + 1) [freeList token.offset tokens] = [] := by
    simp [kept, node_freeList, hfull]
  rw [advance_opening_full hsymbol (by rw [List.length_cons]; omega), hkept, ← hfull,
    limitAnomalies_beyond, noteAll_singleton, advance_passed_items]
  rfl

end Steps

/-- The items of the innermost open list are those of the reader without a limit, without the ones
that are too deep. -/
theorem advance_items {limit : Nat} {inner : OpenList} {outer : List OpenList}
    (hroom : outer.length < limit) (tokens : List Token) :
    advance limit 0 (inner :: outer) tokens =
      noteAll (limitAnomalies limit (Placed.listsOfAll (outer.length + 1) (freeItems tokens).items))
        (afterItems limit (inner.pushAll (kept limit (outer.length + 1) (freeItems tokens).items))
          outer (freeItems tokens)) := by
  induction tokens using freeItems_induction generalizing inner outer with
  | nil => simp [freeItems_nil, limitAnomalies, afterItems, kept, advance, OpenList.pushAll]
  | closing token tokens hsymbol =>
    rw [advance_closing limit hsymbol, freeItems_closing hsymbol]
    simp [limitAnomalies, afterItems, kept, OpenList.pushAll]
  | atom token tokens text hsymbol ih =>
    rw [advance_atom limit hsymbol, resume, ih hroom, freeItems_atom hsymbol, OpenList.pushAll_push]
    simp [afterItems, kept]
  | opening token tokens hsymbol ihinner ihothers =>
    have hlist : advance limit 0 (inner :: outer) (token :: tokens) =
        noteAll (limitAnomalies limit ((freeList token.offset tokens).lists (outer.length + 1)))
          (afterList limit (inner.pushAll (kept limit (outer.length + 1)
            [freeList token.offset tokens])) outer (freeItems tokens)) := by
      by_cases hwithin : outer.length + 1 < limit
      · exact advance_list_within hsymbol hwithin (ihinner (by rwa [List.length_cons]))
      · exact advance_list_beyond hsymbol (by omega)
    rw [hlist, freeItems_opening hsymbol, afterList]
    cases hclosed : (freeItems tokens).closed with
    | true =>
      have hplaces := closed_of_mem_lists_freeList hclosed (outer.length + 1) token.offset
      rw [if_pos rfl, ihothers hroom, OpenList.pushAll_pushAll, ← kept_append,
        Placed.listsOfAll_cons, limitAnomalies_append hplaces, noteAll_append]
      rfl
    | false =>
      rw [if_neg (by simp), freeItems_of_open hclosed, afterItems, if_neg (by simp),
        Placed.listsOfAll_cons, Placed.listsOfAll_nil, List.append_nil]

end Reading

/-- A limited reading takes the same tokens as an unlimited one; its tree is the unlimited tree cut
off at the limit, and its anomalies are those of the lists of that tree. -/
theorem readNode_eq_readFreely {limit : Nat} (hlimit : 0 < limit) (tokens : List Token) :
    readNode tokens limit =
      ⟨(readFreely tokens).tree.bind (·.node.within? limit),
        limitAnomalies limit (readFreely tokens).lists, (readFreely tokens).rest⟩ := by
  cases tokens with
  | nil => rfl
  | cons token tokens =>
    cases hsymbol : token.symbol with
    | opening =>
      have hread : readNode (token :: tokens) limit = Reading.noteAll
          (limitAnomalies limit (Placed.listsOfAll 1 (freeItems tokens).items))
          (Reading.afterItems limit ((OpenList.start token.offset).pushAll
            (Reading.kept limit 1 (freeItems tokens).items)) [] (freeItems tokens)) := by
        rw [readNode, Reading.advance_opening hsymbol hlimit]
        exact Reading.advance_items hlimit tokens
      have hnode := OpenList.node_pushAll_start
        (Reading.kept limit 1 (freeItems tokens).items) token.offset
      have hkept : (freeList token.offset tokens).node.within? limit =
          some (.list (Reading.kept limit 1 (freeItems tokens).items)) :=
        Reading.within?_freeList hlimit token.offset tokens
      have hfree : readFreely (token :: tokens) =
          ⟨some (freeList token.offset tokens), (freeItems tokens).rest⟩ := by
        simp only [readFreely, hsymbol]
      rw [hread, Reading.afterItems_outermost limit _ freeItems_rest_eq_nil, hnode, hfree,
        FreeReading.lists, Option.elim_some, Option.bind_some, hkept, limitAnomalies_within hlimit]
      rfl
    | closing =>
      rw [readNode, Reading.advance_unmatched limit hsymbol]
      simp [readFreely, hsymbol, FreeReading.lists, limitAnomalies]
    | atom text =>
      rw [readNode, Reading.advance_atom limit hsymbol, Reading.resume]
      simp [readFreely, hsymbol, FreeReading.lists, limitAnomalies]

/-! ### Lists that are too deep -/

/-- Exactly the lists just below the limit are reported as too deep. -/
theorem nestingTooDeep_mem_limitAnomalies {limit offset : Nat} {places : List ListPlace} :
    .nestingTooDeep offset ∈ limitAnomalies limit places ↔
      ∃ place ∈ places, place.depth = limit + 1 ∧ place.offset = offset := by
  simp [limitAnomalies, tooDeep, leftOpen, and_assoc]

/-- No list is too deep exactly when the tree of an unlimited reading is within the limit. -/
theorem no_nestingTooDeep_iff {limit : Nat} {reading : FreeReading} :
    (∀ offset, .nestingTooDeep offset ∉ limitAnomalies limit reading.lists) ↔
      ∀ tree, reading.tree = some tree → tree.node.depth ≤ limit := by
  simp only [nestingTooDeep_mem_limitAnomalies]
  cases htree : reading.tree with
  | none => simp [FreeReading.lists, htree]
  | some tree =>
    have hlists : reading.lists = tree.lists 0 := by rw [FreeReading.lists, htree, Option.elim_some]
    rw [hlists]
    constructor
    · rintro hnone other hother
      obtain rfl := Option.some.inj hother
      refine Nat.le_of_not_lt fun hlt => ?_
      obtain ⟨place, hplace, hdepth⟩ := tree.exists_mem_lists 0 hlt
      rw [Nat.zero_add] at hdepth
      exact hnone place.offset ⟨place, hplace, hdepth, rfl⟩
    · rintro hdepth offset ⟨place, hplace, hplaceDepth, -⟩
      have hbounds := tree.depth_of_mem_lists 0 place hplace
      have hle := hdepth tree rfl
      omega

/-- **Passing over deep lists refines unlimited reading.** Reading takes exactly the tokens that an
unlimited reader takes, and gives the unlimited tree without the lists that are nested deeper than
the limit. It records every list just below the limit once, at its `(`, and then every list within
the limit that lacks a `)`, and nothing else. So what is read is never too deep, and nothing is
recorded as too deep exactly when the unlimited tree is not. -/
theorem readNode_refines_readFreely (tokens : List Token) :
    (readNode tokens).rest = (readFreely tokens).rest ∧
    (readNode tokens).node = (readFreely tokens).tree.bind (·.node.within? maxDepth) ∧
    (readNode tokens).anomalies =
      ((readFreely tokens).lists.filter fun place => place.depth = maxDepth + 1).map
          (fun place => Anomaly.nestingTooDeep place.offset) ++
        ((readFreely tokens).lists.filter fun place =>
            place.closed = false ∧ place.depth ≤ maxDepth).map
          (fun place => Anomaly.unclosedList place.offset) ∧
    (∀ node, (readNode tokens).node = some node → node.depth ≤ maxDepth) ∧
    ((∀ offset, .nestingTooDeep offset ∉ (readNode tokens).anomalies) ↔
      ∀ tree, (readFreely tokens).tree = some tree → tree.node.depth ≤ maxDepth) := by
  have hread := readNode_eq_readFreely (show 0 < maxDepth by decide) tokens
  refine ⟨by rw [hread], by rw [hread], by rw [hread]; rfl, fun node hnode => ?_, ?_⟩
  · exact Reading.depth_le hnode
  · rw [hread]
    exact no_nestingTooDeep_iff

/-- After 129 parentheses and none that closes, the innermost list is missing. -/
theorem readNode_refines_readFreely_of_openings :
    (∃ tree, (readFreely (List.replicate 129 (Token.openingAt 3))).tree = some tree ∧
      tree.node.depth = 129) ∧
    (∃ node, (readNode (List.replicate 129 (Token.openingAt 3))).node = some node ∧
      node.depth ≤ maxDepth) ∧
    ∃ offset, .nestingTooDeep offset ∈
      (readNode (List.replicate 129 (Token.openingAt 3))).anomalies := by
  have htree : (readFreely (List.replicate 129 (Token.openingAt 3))).tree.map (·.node.depth) =
      some 129 := by decide +kernel
  have hsome : (readNode (List.replicate 129 (Token.openingAt 3))).node.isSome = true := by
    decide +kernel
  obtain ⟨tree, htree, hdepth⟩ := Option.map_eq_some_iff.mp htree
  obtain ⟨node, hnode⟩ := Option.isSome_iff_exists.mp hsome
  obtain ⟨-, -, -, hwithin, hdeep⟩ :=
    readNode_refines_readFreely (List.replicate 129 (Token.openingAt 3))
  refine ⟨⟨tree, htree, hdepth⟩, ⟨node, hnode, hwithin node hnode⟩, ?_⟩
  by_contra hnone
  have hle := hdeep.mp (fun offset hoffset => hnone ⟨offset, hoffset⟩) tree htree
  rw [hdepth] at hle
  exact absurd hle (by decide)

end Menus
