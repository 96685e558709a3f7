import Menus.Reading
import Menus.Proofs.Tree
import Mathlib.Data.List.Basic

/-!
# The symbols of a tree

A tree is written as a sequence of symbols: its atoms, and a pair of parentheses around the items
of each list. Reading goes by the symbols of the tokens; where a token stands matters for anomalies
only. The main result is that reading the symbols of a tree gives that tree back, whatever follows
it and however many lists are open around it, as long as the depth stays within the limit.
-/

namespace Menus

/-- What a token stands for in a tree, wherever it was found. -/
inductive Symbol where
  | opening
  | closing
  | atom (text : String)
  deriving DecidableEq

/-- The text of an atom, and nothing for a parenthesis. -/
def Symbol.text? : Symbol → Option String
  | .atom text => some text
  | _ => none

/-- A word and a bracketed token are atoms alike. -/
def Token.symbol (token : Token) : Symbol :=
  match token.kind with
  | .opening => .opening
  | .closing => .closing
  | .word => .atom token.text
  | .bracketed => .atom token.text

/-- A token is an opening symbol for its kind alone. -/
theorem Token.symbol_eq_opening_iff {token : Token} :
    token.symbol = .opening ↔ token.kind = .opening := by
  obtain ⟨kind, text, offset⟩ := token
  cases kind <;> simp [symbol]

/-- So it is a closing one. -/
theorem Token.symbol_eq_closing_iff {token : Token} :
    token.symbol = .closing ↔ token.kind = .closing := by
  obtain ⟨kind, text, offset⟩ := token
  cases kind <;> simp [symbol]

/-- The texts of the atoms among some tokens. -/
def atomTexts (tokens : List Token) : List String := tokens.filterMap (·.symbol.text?)

/-- A token adds its text if it is an atom. -/
theorem atomTexts_cons (token : Token) (tokens : List Token) :
    atomTexts (token :: tokens) = token.symbol.text?.toList ++ atomTexts tokens := by
  rw [atomTexts, List.filterMap_cons]
  cases token.symbol.text? <;> rfl

namespace Node

mutual

/-- The symbols that a tree is written with. -/
def symbols : Node → List Symbol
  | .atom text => [.atom text]
  | .list items => .opening :: symbolsOfAll items ++ [.closing]

/-- The symbols of some items, one item after the other. -/
def symbolsOfAll : List Node → List Symbol
  | [] => []
  | item :: items => item.symbols ++ symbolsOfAll items

end

/-- The symbols of items are those of each of them. -/
theorem symbolsOfAll_eq (items : List Node) : symbolsOfAll items = items.flatMap symbols := by
  induction items with
  | nil => rfl
  | cons item items ih => simp [symbolsOfAll, ih]

/-- An atom is one symbol. -/
@[simp] theorem symbols_atom (text : String) : (Node.atom text).symbols = [.atom text] := by
  rw [symbols]

/-- A list has the symbols of its items between parentheses. -/
@[simp] theorem symbols_list (items : List Node) :
    (Node.list items).symbols = .opening :: (items.flatMap symbols ++ [.closing]) := by
  rw [symbols, symbolsOfAll_eq, List.cons_append]

end Node

/-- The atoms of a tree are those among its symbols. -/
theorem Node.filterMap_symbols (node : Node) :
    node.symbols.filterMap Symbol.text? = node.atoms := by
  induction node using byItems with
  | atom text => simp [Symbol.text?]
  | list items ih =>
    have hitems : (items.flatMap symbols).filterMap Symbol.text? = items.flatMap atoms := by
      rw [List.filterMap_flatMap]
      exact List.flatMap_congr ih
    rw [symbols_list, atoms_list, List.filterMap_cons, List.filterMap_append, hitems]
    simp [Symbol.text?]

/-- Tokens with the symbols of a node have its atoms as texts. -/
theorem atomTexts_of_symbols {node : Node} {tokens : List Token}
    (htokens : tokens.map Token.symbol = node.symbols) : atomTexts tokens = node.atoms := by
  rw [← node.filterMap_symbols, ← htokens, List.filterMap_map]
  rfl

/-! ### One token at a time -/

namespace Reading

/-- Reading goes on after a node is complete: the node becomes an item of the innermost open list,
and without one it is what was to be read. -/
def resume (limit : Nat) (node : Node) : List OpenList → List Token → Reading
  | [], tokens => ⟨some node, [], tokens⟩
  | inner :: outer, tokens => advance limit 0 (inner.push node :: outer) tokens

/-- Below the limit an opening parenthesis starts a list. -/
theorem advance_opening {limit : Nat} {openLists : List OpenList} {token : Token}
    {tokens : List Token} (hsymbol : token.symbol = .opening) (hroom : openLists.length < limit) :
    advance limit 0 openLists (token :: tokens) =
      advance limit 0 (.start token.offset :: openLists) tokens := by
  rw [Token.symbol_eq_opening_iff] at hsymbol
  simp [advance, hsymbol, hroom]

/-- A closing parenthesis makes a node of the innermost list. -/
theorem advance_closing (limit : Nat) {inner : OpenList} {outer : List OpenList} {token : Token}
    {tokens : List Token} (hsymbol : token.symbol = .closing) :
    advance limit 0 (inner :: outer) (token :: tokens) = resume limit inner.node outer tokens := by
  rw [Token.symbol_eq_closing_iff] at hsymbol
  cases outer <;> simp [advance, hsymbol, resume]

/-- An atom is a node. -/
theorem advance_atom (limit : Nat) {openLists : List OpenList} {token : Token}
    {tokens : List Token} {text : String} (hsymbol : token.symbol = .atom text) :
    advance limit 0 openLists (token :: tokens) = resume limit (.atom text) openLists tokens := by
  obtain ⟨kind, written, offset⟩ := token
  cases kind with
  | opening => cases hsymbol
  | closing => cases hsymbol
  | word => cases hsymbol; cases openLists <;> rfl
  | bracketed => cases hsymbol; cases openLists <;> rfl

end Reading

/-- A list that has got several more items. -/
def OpenList.pushAll (items : List Node) (openList : OpenList) : OpenList :=
  { openList with reversed := items.reverse ++ openList.reversed }

/-- An item is pushed before those after it. -/
theorem OpenList.pushAll_push (item : Node) (items : List Node) (openList : OpenList) :
    (openList.push item).pushAll items = openList.pushAll (item :: items) := by
  simp [pushAll, push]

/-- All items that were pushed are in the list. -/
theorem OpenList.node_pushAll_start (items : List Node) (offset : Nat) :
    ((OpenList.start offset).pushAll items).node = .list items := by
  simp [pushAll, start, node]

/-! ### All the symbols of a tree -/

namespace Reading

/-- The symbols of some items add these items to the innermost open list, if each item can be read
inside of it. -/
private theorem advance_symbols_items {limit : Nat} {items : List Node}
    (hread : ∀ item ∈ items, ∀ openLists tokens rest,
      item.depth + openLists.length ≤ limit → tokens.map Token.symbol = item.symbols →
      advance limit 0 openLists (tokens ++ rest) = resume limit item openLists rest)
    {inner : OpenList} {outer : List OpenList} {tokens : List Token} (rest : List Token)
    (hdepth : ∀ item ∈ items, item.depth + (inner :: outer).length ≤ limit)
    (htokens : tokens.map Token.symbol = items.flatMap Node.symbols) :
    advance limit 0 (inner :: outer) (tokens ++ rest) =
      advance limit 0 (inner.pushAll items :: outer) rest := by
  induction items generalizing inner tokens with
  | nil =>
    rw [List.flatMap_nil, List.map_eq_nil_iff] at htokens
    rw [htokens]
    rfl
  | cons item items ih =>
    obtain ⟨first, others, rfl, hfirst, hothers⟩ := List.map_eq_append_iff.mp htokens
    have hitem := hread item (by simp) (inner :: outer) first (others ++ rest)
      (hdepth item (by simp)) hfirst
    have hitems : advance limit 0 (inner.push item :: outer) (others ++ rest) =
        advance limit 0 ((inner.push item).pushAll items :: outer) rest :=
      ih (fun item h => hread item (by simp [h])) (fun item h => hdepth item (by simp [h])) hothers
    rw [List.append_assoc, hitem, resume, hitems, OpenList.pushAll_push]

/-- The symbols of a tree are read as that tree, and nothing after them is touched. -/
theorem advance_symbols {limit : Nat} {node : Node} {openLists : List OpenList}
    {tokens : List Token} (rest : List Token) (hdepth : node.depth + openLists.length ≤ limit)
    (htokens : tokens.map Token.symbol = node.symbols) :
    advance limit 0 openLists (tokens ++ rest) = resume limit node openLists rest := by
  induction node using Node.byItems generalizing openLists tokens rest with
  | atom text =>
    rw [Node.symbols_atom] at htokens
    obtain ⟨token, rfl, hsymbol⟩ := List.map_eq_singleton_iff.mp htokens
    exact advance_atom limit hsymbol
  | list items ih =>
    rw [Node.symbols_list] at htokens
    obtain ⟨first, others, rfl, hfirst, hothers⟩ := List.map_eq_cons_iff.mp htokens
    obtain ⟨inside, closing, rfl, hinside, hclosing⟩ := List.map_eq_append_iff.mp hothers
    obtain ⟨last, rfl, hlast⟩ := List.map_eq_singleton_iff.mp hclosing
    rw [Node.depth_list] at hdepth
    have hroom : openLists.length < limit := by omega
    have hitems : ∀ item ∈ items,
        item.depth + (OpenList.start first.offset :: openLists).length ≤ limit := by
      intro item hitem
      have hitem := Node.depth_le_depthOfAll hitem
      rw [List.length_cons]
      omega
    have hread := advance_symbols_items
      (fun item hitem openLists tokens rest => ih item hitem rest) ([last] ++ rest) hitems hinside
    rw [List.cons_append, List.append_assoc, advance_opening hfirst hroom, hread,
      List.singleton_append, advance_closing limit hlast, OpenList.node_pushAll_start]

end Reading

/-- A tree within the depth limit is read back from its symbols without an anomaly, and the tokens
after it are left. -/
theorem readNode_symbols {node : Node} {tokens : List Token} (rest : List Token)
    (hdepth : node.depth ≤ maxDepth) (htokens : tokens.map Token.symbol = node.symbols) :
    readNode (tokens ++ rest) = ⟨some node, [], rest⟩ := by
  have hread : Reading.advance maxDepth 0 [] (tokens ++ rest) =
      Reading.resume maxDepth node [] rest :=
    Reading.advance_symbols rest hdepth htokens
  exact hread

/-- Tokens that are exactly the symbols of a tree within the depth limit have that tree as their
root, and nothing is irregular about them. -/
theorem readRoot_symbols {node : Node} {tokens : List Token} (hdepth : node.depth ≤ maxDepth)
    (htokens : tokens.map Token.symbol = node.symbols) : readRoot tokens = ⟨some node, []⟩ := by
  have hread : readNode tokens = ⟨some node, [], []⟩ := by
    simpa using readNode_symbols [] hdepth htokens
  have hfirst : unmatchedClose tokens = [] := by
    cases tokens with
    | nil => rfl
    | cons token others =>
      have hsymbol : token.symbol ≠ .closing := by
        cases node <;> simp at htokens <;> simp [htokens.1]
      rw [Ne, Token.symbol_eq_closing_iff] at hsymbol
      simp [unmatchedClose, hsymbol]
  simp [readRoot, hread, hfirst, trailingTokens]

end Menus
