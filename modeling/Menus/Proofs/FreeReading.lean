import Menus.Proofs.Symbols

/-!
# Reading without a depth limit

The grammar of trees read top down: the items of a list one after the other, and those of a list
inside it by the same reader, at any depth. For every list this reader keeps where it was opened and
whether a `)` closed it, so that all which is irregular about some tokens can be read off its tree.
It leaves nothing out: the tokens it takes, with a `)` for each list that lacks one, are exactly the
symbols of its tree.
-/

namespace Menus

/-- A tree as it stands among tokens: a list keeps the byte of its `(`, and whether a `)` closed it
or the end of the tokens. -/
inductive Placed where
  /-- A word or a bracketed token. -/
  | atom (text : String)
  /-- The items after a `(`. -/
  | list (offset : Nat) (closed : Bool) (items : List Placed)
  deriving Inhabited

/-- One of the lists of a tree. -/
structure ListPlace where
  /-- The number of lists that it is in, itself included. -/
  depth : Nat
  /-- The byte of its `(`. -/
  offset : Nat
  /-- Whether it has a `)`. -/
  closed : Bool
  deriving DecidableEq

namespace Placed

mutual

/-- The tree alone. -/
def node : Placed → Node
  | .atom text => .atom text
  | .list _ _ items => .list (nodes items)

/-- Some trees alone. -/
def nodes : List Placed → List Node
  | [] => []
  | item :: items => item.node :: nodes items

end

mutual

/-- The lists of a tree that is inside some others, in the order in which they end. -/
def lists (around : Nat) : Placed → List ListPlace
  | .atom _ => []
  | .list offset closed items =>
    listsOfAll (around + 1) items ++ [⟨around + 1, offset, closed⟩]

/-- The lists of some items, one item after the other. -/
def listsOfAll (around : Nat) : List Placed → List ListPlace
  | [] => []
  | item :: items => item.lists around ++ listsOfAll around items

end

/-- The nodes of placed items are taken one by one. -/
theorem nodes_eq_map (items : List Placed) : nodes items = items.map node := by
  induction items with
  | nil => rw [nodes, List.map_nil]
  | cons item items ih => rw [nodes, ih, List.map_cons]

/-- A placed atom is an atom. -/
@[simp] theorem node_atom (text : String) : (Placed.atom text).node = .atom text := by
  rw [node]

/-- A placed list is a list of the nodes of its items. -/
@[simp] theorem node_list (offset : Nat) (closed : Bool) (items : List Placed) :
    (Placed.list offset closed items).node = .list (items.map node) := by
  rw [node, nodes_eq_map]

/-- There are no lists in an atom. -/
@[simp] theorem lists_atom (around : Nat) (text : String) :
    (Placed.atom text).lists around = [] := by
  rw [lists]

/-- A list comes after the lists inside of it. -/
@[simp] theorem lists_list (around offset : Nat) (closed : Bool) (items : List Placed) :
    (Placed.list offset closed items).lists around =
      listsOfAll (around + 1) items ++ [⟨around + 1, offset, closed⟩] := by
  rw [lists]

/-- Without items there are no lists. -/
@[simp] theorem listsOfAll_nil (around : Nat) : listsOfAll around [] = [] := by
  rw [listsOfAll]

/-- The lists of an item come before those of the items after it. -/
@[simp] theorem listsOfAll_cons (around : Nat) (item : Placed) (items : List Placed) :
    listsOfAll around (item :: items) = item.lists around ++ listsOfAll around items := by
  rw [listsOfAll]

/-- The lists of placed items are those of each of them. -/
theorem listsOfAll_eq_flatMap (around : Nat) (items : List Placed) :
    listsOfAll around items = items.flatMap (lists around) := by
  induction items with
  | nil => rw [listsOfAll_nil, List.flatMap_nil]
  | cons item items ih => rw [listsOfAll_cons, ih, List.flatMap_cons]

/-- Induction over a tree: a list has a property when all of its items have it. -/
@[elab_as_elim] theorem byItems {motive : Placed → Prop}
    (atom : ∀ text, motive (.atom text))
    (list : ∀ offset closed items, (∀ item ∈ items, motive item) →
      motive (.list offset closed items))
    (tree : Placed) : motive tree :=
  @Placed.rec motive (fun items => ∀ item ∈ items, motive item) atom list (by simp)
    (fun item items hitem hitems => by simpa using ⟨hitem, hitems⟩) tree

end Placed

/-! ### The reader -/

/-- Items that were read up to the end of their list: whether that is a `)`, and the tokens after
it. -/
structure FreeItems where
  items : List Placed
  closed : Bool
  rest : List Token

/-- Read the items of a list whose `(` was taken, its `)` included. What is left is never longer
than the tokens were, so a list that is read inside of these items leaves fewer tokens for the
others. -/
def readItems : (tokens : List Token) → { read : FreeItems // read.rest.length ≤ tokens.length }
  | [] => ⟨⟨[], false, []⟩, Nat.le_refl _⟩
  | token :: tokens =>
    match token.symbol with
    | .opening =>
      let inner := readItems tokens
      let others := readItems inner.1.rest
      ⟨⟨.list token.offset inner.1.closed inner.1.items :: others.1.items, others.1.closed,
        others.1.rest⟩, Nat.le_succ_of_le (Nat.le_trans others.2 inner.2)⟩
    | .closing => ⟨⟨[], true, tokens⟩, Nat.le_succ _⟩
    | .atom text =>
      let others := readItems tokens
      ⟨⟨.atom text :: others.1.items, others.1.closed, others.1.rest⟩, Nat.le_succ_of_le others.2⟩
termination_by tokens => tokens.length
decreasing_by
  · simp
  · exact Nat.lt_succ_of_le inner.2
  · simp

/-- The items of a list whose `(` was taken. -/
def freeItems (tokens : List Token) : FreeItems := (readItems tokens).1

/-- The list whose `(` was taken at the given byte. -/
def freeList (offset : Nat) (tokens : List Token) : Placed :=
  .list offset (freeItems tokens).closed (freeItems tokens).items

/-- A tree, if there is one, and the tokens that were not taken. -/
structure FreeReading where
  tree : Option Placed
  rest : List Token

/-- The lists of the tree that was read. -/
def FreeReading.lists (reading : FreeReading) : List ListPlace :=
  reading.tree.elim [] (Placed.lists 0)

/-- Read one node at any depth. There is none when the tokens have ended, or when the first one is a
`)`, which is taken. -/
def readFreely : List Token → FreeReading
  | [] => ⟨none, []⟩
  | token :: tokens =>
    match token.symbol with
    | .opening => ⟨some (freeList token.offset tokens), (freeItems tokens).rest⟩
    | .closing => ⟨none, tokens⟩
    | .atom text => ⟨some (.atom text), tokens⟩

/-- Read without a limit, a list has the nodes of its items. -/
theorem node_freeList (offset : Nat) (tokens : List Token) :
    (freeList offset tokens).node = .list ((freeItems tokens).items.map Placed.node) :=
  Placed.node_list _ _ _

/-- The lists of such a list are those of its items and then itself. -/
theorem lists_freeList (around offset : Nat) (tokens : List Token) :
    (freeList offset tokens).lists around =
      Placed.listsOfAll (around + 1) (freeItems tokens).items ++
        [⟨around + 1, offset, (freeItems tokens).closed⟩] :=
  Placed.lists_list _ _ _ _

section Equations

variable {token : Token} {tokens : List Token}

/-- Without tokens no items are read. -/
theorem freeItems_nil : freeItems [] = ⟨[], false, []⟩ := by
  rw [freeItems, readItems]

/-- Behind an opening parenthesis a list is read and then what follows it. -/
theorem freeItems_opening (hsymbol : token.symbol = .opening) :
    freeItems (token :: tokens) =
      ⟨freeList token.offset tokens :: (freeItems (freeItems tokens).rest).items,
        (freeItems (freeItems tokens).rest).closed, (freeItems (freeItems tokens).rest).rest⟩ := by
  simp only [freeList, freeItems]
  rw [readItems]
  simp only [hsymbol]

/-- A closing parenthesis ends the items. -/
theorem freeItems_closing (hsymbol : token.symbol = .closing) :
    freeItems (token :: tokens) = ⟨[], true, tokens⟩ := by
  rw [freeItems, readItems]
  simp only [hsymbol]

/-- An atom is read as an item. -/
theorem freeItems_atom {text : String} (hsymbol : token.symbol = .atom text) :
    freeItems (token :: tokens) =
      ⟨.atom text :: (freeItems tokens).items, (freeItems tokens).closed,
        (freeItems tokens).rest⟩ := by
  simp only [freeItems]
  rw [readItems]
  simp only [hsymbol]

end Equations

/-- Induction along the reader. After a `(` it reads the items inside, and then the others from
where these end. -/
@[elab_as_elim] theorem freeItems_induction {motive : List Token → Prop} (nil : motive [])
    (opening : ∀ token tokens, token.symbol = .opening → motive tokens →
      motive (freeItems tokens).rest → motive (token :: tokens))
    (closing : ∀ token tokens, token.symbol = .closing → motive (token :: tokens))
    (atom : ∀ token tokens text, token.symbol = .atom text → motive tokens →
      motive (token :: tokens))
    (tokens : List Token) : motive tokens := by
  induction hlength : tokens.length using Nat.strongRecOn generalizing tokens with
  | ind length ih =>
    subst hlength
    cases tokens with
    | nil => exact nil
    | cons token tokens =>
      have hshorter : ∀ rest : List Token, rest.length ≤ tokens.length → motive rest :=
        fun rest hle => ih rest.length (by rw [List.length_cons]; omega) rest rfl
      have htokens : motive tokens := hshorter tokens (Nat.le_refl _)
      cases hsymbol : token.symbol with
      | opening =>
        have hrest : motive (freeItems tokens).rest := hshorter _ (readItems tokens).2
        exact opening token tokens hsymbol htokens hrest
      | closing => exact closing token tokens hsymbol
      | atom text => exact atom token tokens text hsymbol htokens

/-! ### Lists without an end -/

/-- Only the end of the tokens leaves a list open, so nothing comes after it. -/
theorem freeItems_rest_eq_nil {tokens : List Token} (hopen : (freeItems tokens).closed = false) :
    (freeItems tokens).rest = [] := by
  induction tokens using freeItems_induction with
  | nil => rw [freeItems_nil]
  | opening token tokens hsymbol _ ih =>
    rw [freeItems_opening hsymbol] at hopen ⊢
    exact ih hopen
  | closing token tokens hsymbol =>
    rw [freeItems_closing hsymbol] at hopen
    cases hopen
  | atom token tokens text hsymbol ih =>
    rw [freeItems_atom hsymbol] at hopen ⊢
    exact ih hopen

/-- After a list that is left open there are no more items, and the list around it is left open
too. -/
theorem freeItems_of_open {tokens : List Token} (hopen : (freeItems tokens).closed = false) :
    freeItems (freeItems tokens).rest = ⟨[], false, []⟩ := by
  rw [freeItems_rest_eq_nil hopen, freeItems_nil]

/-- So a list is closed if the one around it is closed after it. -/
theorem closed_of_closed_rest {tokens : List Token}
    (hclosed : (freeItems (freeItems tokens).rest).closed = true) :
    (freeItems tokens).closed = true := by
  by_contra hopen
  rw [Bool.not_eq_true] at hopen
  rw [freeItems_of_open hopen] at hclosed
  cases hclosed

/-- A list that is closed has only closed lists inside. -/
theorem closed_of_mem_listsOfAll {tokens : List Token} (hclosed : (freeItems tokens).closed = true)
    (around : Nat) : ∀ place ∈ Placed.listsOfAll around (freeItems tokens).items,
      place.closed = true := by
  induction tokens using freeItems_induction generalizing around with
  | nil =>
    rw [freeItems_nil] at hclosed
    cases hclosed
  | opening token tokens hsymbol ihinner ihothers =>
    rw [freeItems_opening hsymbol] at hclosed ⊢
    have hinner : (freeItems tokens).closed = true := closed_of_closed_rest hclosed
    intro place hplace
    rw [Placed.listsOfAll_cons, lists_freeList, List.mem_append, List.mem_append,
      List.mem_singleton] at hplace
    rcases hplace with (hplace | rfl) | hplace
    · exact ihinner hinner (around + 1) place hplace
    · exact hinner
    · exact ihothers hclosed around place hplace
  | closing token tokens hsymbol => simp [freeItems_closing hsymbol]
  | atom token tokens text hsymbol ih =>
    rw [freeItems_atom hsymbol] at hclosed ⊢
    simpa using ih hclosed around

/-- In a list that is closed all lists are. -/
theorem closed_of_mem_lists_freeList {tokens : List Token}
    (hclosed : (freeItems tokens).closed = true) (around offset : Nat) :
    ∀ place ∈ (freeList offset tokens).lists around, place.closed = true := by
  intro place hplace
  rw [lists_freeList, List.mem_append, List.mem_singleton] at hplace
  rcases hplace with hplace | rfl
  · exact closed_of_mem_listsOfAll hclosed (around + 1) place hplace
  · exact hclosed

/-! ### What the tokens stand for -/

/-- How many of some lists lack a `)`. -/
def missing (places : List ListPlace) : Nat := places.countP (!·.closed)

/-- The close tokens that are missing for some lists and others add up. -/
theorem missing_append (first second : List ListPlace) :
    missing (first ++ second) = missing first + missing second :=
  List.countP_append

/-- A list misses a close token unless it is closed. -/
theorem missing_singleton (place : ListPlace) :
    missing [place] = if place.closed then 0 else 1 := by
  cases hclosed : place.closed <;> simp [missing, hclosed]

/-- Lists that are all closed miss no close token. -/
theorem missing_eq_zero {places : List ListPlace}
    (hclosed : ∀ place ∈ places, place.closed = true) : missing places = 0 := by
  rw [missing, List.countP_eq_zero]
  intro place hplace
  simp [hclosed place hplace]

section Opening

variable {token : Token} {tokens : List Token}

/-- The lists of a list whose first item is a list lack a `)` inside of that item or after it. -/
theorem missing_freeList_opening (hsymbol : token.symbol = .opening) (offset around : Nat) :
    missing ((freeList offset (token :: tokens)).lists around) =
      missing ((freeList token.offset tokens).lists (around + 1)) +
        missing ((freeList offset (freeItems tokens).rest).lists around) := by
  rw [lists_freeList around, lists_freeList around, freeItems_opening hsymbol]
  simp only [Placed.listsOfAll_cons, missing_append, Nat.add_assoc]

/-- The symbols of a list whose first item is a list are those of that item, put before those of the
other items. -/
theorem symbols_freeList_opening (hsymbol : token.symbol = .opening) (offset : Nat) :
    (freeList offset (token :: tokens)).node.symbols =
      .opening :: ((freeList token.offset tokens).node.symbols ++
        (freeList offset (freeItems tokens).rest).node.symbols.tail) := by
  rw [node_freeList offset, freeItems_opening hsymbol, node_freeList offset]
  simp

/-- The `)` that are missing in a list may as well come after the tokens that follow it: either none
is missing, or no tokens follow. -/
private theorem replicate_missing_append_map {after : List Token} (offset around : Nat)
    (hrest : (freeItems tokens).rest = after ++ (freeItems (freeItems tokens).rest).rest) :
    List.replicate (missing ((freeList offset tokens).lists around)) Symbol.closing ++
        after.map Token.symbol =
      after.map Token.symbol ++
        List.replicate (missing ((freeList offset tokens).lists around)) .closing := by
  cases hclosed : (freeItems tokens).closed with
  | true =>
    have hplaces := closed_of_mem_lists_freeList hclosed around offset
    simp [missing_eq_zero hplaces]
  | false =>
    have hafter : after = [] := by
      rw [freeItems_of_open hclosed, freeItems_rest_eq_nil hclosed, List.append_nil] at hrest
      exact hrest.symm
    simp [hafter]

end Opening

/-- The tokens of a list after its `(`, and a `)` for each list that lacks one, are the symbols of
the list. -/
private theorem freeList_symbols (tokens : List Token) (offset around : Nat) :
    ∃ taken, tokens = taken ++ (freeItems tokens).rest ∧
      .opening :: (taken.map Token.symbol ++
          List.replicate (missing ((freeList offset tokens).lists around)) .closing) =
        (freeList offset tokens).node.symbols := by
  induction tokens using freeItems_induction generalizing offset around with
  | nil => exact ⟨[], by simp [freeList, freeItems_nil, missing_singleton]⟩
  | closing token tokens hsymbol =>
    exact ⟨[token], by simp [freeList, freeItems_closing hsymbol, hsymbol, missing_singleton]⟩
  | atom token tokens text hsymbol ih =>
    obtain ⟨taken, htokens, hsymbols⟩ := ih offset around
    rw [lists_freeList, node_freeList] at hsymbols ⊢
    rw [freeItems_atom hsymbol]
    refine ⟨token :: taken, by rw [List.cons_append, ← htokens], ?_⟩
    simpa [hsymbol] using hsymbols
  | opening token tokens hsymbol ihinner ihothers =>
    obtain ⟨inside, htokens, hinside⟩ := ihinner token.offset (around + 1)
    obtain ⟨after, hrest, hafter⟩ := ihothers offset around
    have hcommute := replicate_missing_append_map token.offset (around + 1) hrest
    rw [freeItems_opening hsymbol]
    refine ⟨token :: inside ++ after, ?_, ?_⟩
    · rw [List.append_assoc, ← hrest, List.cons_append, ← htokens]
    · rw [symbols_freeList_opening hsymbol, missing_freeList_opening hsymbol, ← hinside, ← hafter,
        List.replicate_add]
      simp only [List.cons_append, List.map_cons, List.map_append, hsymbol, List.tail_cons,
        List.append_assoc]
      rw [← List.append_assoc (List.replicate _ _), hcommute, List.append_assoc]

/-- **The account of a reading.** The tokens that are taken for a tree, and a `)` for each of its
lists that lacks one, are the symbols of the tree. -/
theorem readFreely_symbols {tokens : List Token} {tree : Placed}
    (htree : (readFreely tokens).tree = some tree) :
    ∃ taken, tokens = taken ++ (readFreely tokens).rest ∧
      taken.map Token.symbol ++ List.replicate (missing (tree.lists 0)) .closing =
        tree.node.symbols := by
  cases tokens with
  | nil => cases htree
  | cons token tokens =>
    cases hsymbol : token.symbol with
    | opening =>
      simp only [readFreely, hsymbol, Option.some.injEq] at htree ⊢
      obtain ⟨taken, htokens, hsymbols⟩ := freeList_symbols tokens token.offset 0
      rw [← htree]
      refine ⟨token :: taken, by rw [List.cons_append, ← htokens], ?_⟩
      rw [List.map_cons, hsymbol, List.cons_append, hsymbols]
    | closing => simp [readFreely, hsymbol] at htree
    | atom text =>
      simp only [readFreely, hsymbol, Option.some.injEq] at htree ⊢
      refine ⟨[token], rfl, ?_⟩
      simp [← htree, hsymbol, missing]

end Menus
