import Menus.Node
import Menus.Token

/-!
# Reading trees from tokens

Reading keeps the lists that are open, innermost first, and takes one token at a time. It stops as
soon as one node is complete. It is lenient: lists still open at the end of the tokens are closed
there, a `)` where no list is open stands for no node, and a list that would be nested too deeply
is passed over as a whole. Each of these leaves an anomaly.
-/

namespace Menus

/-- A list whose `(` was read and whose `)` was not, with its items so far, latest first. -/
structure OpenList where
  /-- The byte of its `(`. -/
  offset : Nat
  reversed : List Node
  deriving DecidableEq, Inhabited

namespace OpenList

/-- A list that has just been opened. -/
def start (offset : Nat) : OpenList := ⟨offset, []⟩

/-- One more item. -/
def push (item : Node) (openList : OpenList) : OpenList :=
  { openList with reversed := item :: openList.reversed }

/-- The list as it is closed. -/
def node (openList : OpenList) : Node := .list openList.reversed.reverse

end OpenList

/-- What reading one node gives: the node, if there is one, the anomalies in the order in which
they were met, and the tokens that were not taken. -/
structure Reading where
  node : Option Node
  anomalies : List Anomaly
  rest : List Token
  deriving DecidableEq, Inhabited

namespace Reading

/-- Put an anomaly in front. -/
def note (anomaly : Anomaly) (reading : Reading) : Reading :=
  { reading with anomalies := anomaly :: reading.anomalies }

/-- The tokens have ended: the innermost list is closed and becomes an item of the next one. -/
def closeAll (item : Option Node) : List OpenList → Reading
  | [] => ⟨item, [], []⟩
  | inner :: outer =>
    note (.unclosedList inner.offset)
      (closeAll (some (item.elim inner (inner.push ·)).node) outer)

/-- Take tokens until a node is complete. `passed` counts the open lists of a list that is passed
over because as many as `limit` lists were open at its `(`; it is zero otherwise. -/
def advance (limit : Nat) (passed : Nat) (openLists : List OpenList) : List Token → Reading
  | [] => closeAll none openLists
  | token :: tokens =>
    match passed, token.kind with
    | 0, .opening =>
      if openLists.length < limit then
        Reading.advance limit 0 (.start token.offset :: openLists) tokens
      else note (.nestingTooDeep token.offset) (Reading.advance limit 1 openLists tokens)
    | 0, .closing =>
      match openLists with
      | [] => ⟨none, [], tokens⟩
      | [outermost] => ⟨some outermost.node, [], tokens⟩
      | inner :: parent :: outer =>
        Reading.advance limit 0 (parent.push inner.node :: outer) tokens
    | 0, _ =>
      match openLists with
      | [] => ⟨some (.atom token.text), [], tokens⟩
      | inner :: outer => Reading.advance limit 0 (inner.push (.atom token.text) :: outer) tokens
    | passed + 1, .opening => Reading.advance limit (passed + 2) openLists tokens
    | 1, .closing =>
      if openLists.isEmpty then ⟨none, [], tokens⟩ else Reading.advance limit 0 openLists tokens
    | passed + 2, .closing => Reading.advance limit (passed + 1) openLists tokens
    | passed + 1, _ => Reading.advance limit (passed + 1) openLists tokens

end Reading

/-- Read one node, no list of it nested deeper than `limit`. There is none when the tokens have
ended, when the first token is `)`, which is taken, or when the whole list is passed over. -/
def readNode (tokens : List Token) (limit : Nat := maxDepth) : Reading :=
  Reading.advance limit 0 [] tokens

/-- The anomaly of a `)` in front of the first node. -/
def unmatchedClose (tokens : List Token) : List Anomaly :=
  match tokens with
  | token :: _ => if token.kind = .closing then [.unmatchedClose token.offset] else []
  | [] => []

/-- The anomaly of tokens that no node was read from. -/
def trailingTokens (tokens : List Token) : List Anomaly :=
  match tokens with
  | token :: _ => [.trailingTokens token.offset tokens.length]
  | [] => []

/-- A tree, if there is one, and the anomalies met on the way to it. -/
structure Parse where
  root : Option Node
  anomalies : List Anomaly
  deriving DecidableEq, Inhabited

/-- Read the root, and record a `)` before it and whatever follows it. -/
def readRoot (tokens : List Token) : Parse :=
  let reading := readNode tokens
  ⟨reading.node,
    reading.anomalies ++ unmatchedClose tokens ++ trailingTokens reading.rest⟩

/-! ### One node after the other

A reader may be asked for one node after the other. It reads each by recursion, and keeps count of
the lists that are open, on which it depends whether a list is built.
-/

/-- A reader in the middle of some tokens. -/
structure Reader where
  /-- The tokens that it has not taken. -/
  rest : List Token
  /-- The number of lists that are open. -/
  depth : Nat := 0
  /-- The anomalies in the order in which it has met them. -/
  anomalies : List Anomaly := []
  deriving DecidableEq, Inhabited

namespace Reader

/-- Put an anomaly at the end. -/
def note (anomaly : Anomaly) (reader : Reader) : Reader :=
  { reader with anomalies := reader.anomalies ++ [anomaly] }

/-- What follows a list that is passed over, after its `(`. As many as `inside` lists are open
inside of it. -/
def passOver (inside : Nat) : List Token → List Token
  | [] => []
  | token :: tokens =>
    match token.kind, inside with
    | .opening, inside => passOver (inside + 1) tokens
    | .closing, 0 => tokens
    | .closing, inside + 1 => passOver inside tokens
    | _, inside => passOver inside tokens

/-- Passing over tokens leaves no more than there were. -/
theorem length_passOver_le (inside : Nat) (tokens : List Token) :
    (passOver inside tokens).length ≤ tokens.length := by
  fun_induction passOver inside tokens with
  | case1 => exact Nat.le_refl _
  | case3 => exact Nat.le_succ _
  | case2 _ _ _ _ ih => exact Nat.le_succ_of_le ih
  | case4 _ _ _ _ ih => exact Nat.le_succ_of_le ih
  | case5 _ _ _ _ _ _ ih => exact Nat.le_succ_of_le ih

mutual

/-- Read one node. There is none when the tokens have ended, when the first token is `)`, which is
taken, or when the node is a list that is passed over. -/
def take : (reader : Reader) →
    { taken : Option Node × Reader // taken.2.rest.length ≤ reader.rest.length - 1 }
  | ⟨[], depth, anomalies⟩ => ⟨(none, ⟨[], depth, anomalies⟩), Nat.le_refl _⟩
  | ⟨token :: tokens, depth, anomalies⟩ =>
    match token.kind with
    | .opening =>
      if depth < maxDepth then
        let list := takeItems token.offset ⟨tokens, depth + 1, anomalies⟩
        ⟨(some (.list list.1.1), { list.1.2 with depth := list.1.2.depth - 1 }), list.2⟩
      else
        ⟨(none, note (.nestingTooDeep token.offset) ⟨passOver 0 tokens, depth, anomalies⟩),
          length_passOver_le 0 tokens⟩
    | .closing => ⟨(none, ⟨tokens, depth, anomalies⟩), Nat.le_refl _⟩
    | _ => ⟨(some (.atom token.text), ⟨tokens, depth, anomalies⟩), Nat.le_refl _⟩
termination_by reader => (reader.rest.length, 0)

/-- Read the items of the list whose `(` is at the given byte, up to its `)` or to the end of the
tokens. -/
def takeItems (offset : Nat) : (reader : Reader) →
    { taken : List Node × Reader // taken.2.rest.length ≤ reader.rest.length }
  | ⟨[], depth, anomalies⟩ =>
    ⟨([], note (.unclosedList offset) ⟨[], depth, anomalies⟩), Nat.le_refl _⟩
  | ⟨token :: tokens, depth, anomalies⟩ =>
    if token.kind = .closing then ⟨([], ⟨tokens, depth, anomalies⟩), Nat.le_succ _⟩
    else
      let item := take ⟨token :: tokens, depth, anomalies⟩
      let others := takeItems offset item.1.2
      ⟨(item.1.1.toList ++ others.1.1, others.1.2),
        Nat.le_trans others.2 (Nat.le_succ_of_le item.2)⟩
termination_by reader => (reader.rest.length, 1)
decreasing_by
  · exact Prod.Lex.right _ Nat.zero_lt_one
  · exact Prod.Lex.left _ _ (Nat.lt_succ_of_le item.2)

end

/-- Read the next node. -/
def next (reader : Reader) : Option Node × Reader := reader.take.1

/-- Read the next node as the root, and report everything met from the start on. -/
def finish (reader : Reader) : Parse :=
  let (root, after) := reader.next
  ⟨root, after.anomalies ++ unmatchedClose reader.rest ++ trailingTokens after.rest⟩

end Reader

/-- The tree of a text, with the anomalies in the order of their offsets. -/
def parse (text : String) : Parse :=
  let lexed := Token.scan text
  let read := readRoot lexed.tokens
  ⟨read.root, Anomaly.inOrder (lexed.anomalies ++ read.anomalies)⟩

end Menus
