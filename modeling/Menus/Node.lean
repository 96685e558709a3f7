/-!
# Menu trees

A menu document is a tree of atoms and lists. The tree itself is grammatical only: whether a
list is a menu, a submenu or a plain group is read off its first item. This file holds the tree,
that classification, and the two kinds of atom that survive a reduction, snippets and separators.
-/

namespace Menus

/-- A menu tree: an atom, or a list of trees. -/
inductive Node where
  /-- A piece of text without structure. -/
  | atom (text : String)
  /-- The items between one pair of parentheses. -/
  | list (items : List Node)
  deriving Inhabited

namespace Node

mutual

/-- Equality of trees is decided item by item. -/
protected def decEq : (m n : Node) → Decidable (m = n)
  | .atom s, .atom t =>
    if h : s = t then isTrue (h ▸ rfl) else isFalse fun e => h (Node.atom.inj e)
  | .list ms, .list ns =>
    match Node.decEqList ms ns with
    | isTrue h => isTrue (h ▸ rfl)
    | isFalse h => isFalse fun e => h (Node.list.inj e)
  | .atom _, .list _ => isFalse nofun
  | .list _, .atom _ => isFalse nofun

/-- Equality of item lists, the companion of `Node.decEq`. -/
protected def decEqList : (ms ns : List Node) → Decidable (ms = ns)
  | [], [] => isTrue rfl
  | m :: ms, n :: ns =>
    match Node.decEq m n, Node.decEqList ms ns with
    | isTrue h, isTrue hs => isTrue (h ▸ hs ▸ rfl)
    | isFalse h, _ => isFalse fun e => h (List.cons.inj e).1
    | _, isFalse hs => isFalse fun e => hs (List.cons.inj e).2
  | [], _ :: _ => isFalse nofun
  | _ :: _, [] => isFalse nofun

end

instance : DecidableEq Node := Node.decEq

/-- The first item of a menu. -/
def menuHead : Node := .atom "menu"

/-- The first item of a submenu; its name follows. -/
def submenuHead : Node := .atom "submenu"

/-- The divider between entries. -/
def separator : Node := .atom "---"

/-- The list `(menu entries…)`. -/
def menu (entries : List Node) : Node := .list (menuHead :: entries)

/-- The list `(submenu name entries…)`. -/
def submenu (name : Node) (entries : List Node) : Node := .list (submenuHead :: name :: entries)

/-- The text of an atom, and nothing for a list. -/
def text? : Node → Option String
  | .atom text => some text
  | .list _ => none

/-- The items of a list, and nothing for an atom. -/
def items : Node → List Node
  | .atom _ => []
  | .list items => items

/-- Separators are exactly the atoms `---`. -/
def isSeparator (node : Node) : Bool := node = separator

/-- A list whose first item is the atom `menu`. -/
def isMenu (node : Node) : Bool := node.items.head? = some menuHead

/-- A list whose first item is the atom `submenu`, with or without a name. -/
def isSubmenu (node : Node) : Bool := node.items.head? = some submenuHead

end Node

/-- What a node is, read off its first item. -/
inductive Shape where
  /-- An atom. -/
  | atom (text : String)
  /-- `(menu entries…)`. -/
  | menu (entries : List Node)
  /-- `(submenu name entries…)`; there is no name when the list is just `(submenu)`. -/
  | submenu (name : Option Node) (entries : List Node)
  /-- Any other list, the empty one included; all of its items are entries. -/
  | group (items : List Node)

/-- The classification of a node by its first item. -/
def Node.shape : Node → Shape
  | .atom text => .atom text
  | .list [] => .group []
  | .list (head :: items) =>
    if head = menuHead then .menu items
    else if head = submenuHead then .submenu items.head? items.tail
    else .group (head :: items)

/-- The items of a node that are visible to a user: all of a group, those of a menu after its
head, those of a submenu after its head and its name. -/
def Node.entries (node : Node) : List Node :=
  match node.shape with
  | .atom _ => []
  | .menu entries => entries
  | .submenu _ entries => entries
  | .group items => items

/-- The characters every snippet reference starts with. -/
def snippetStart : List Char := ['s', 'n', 'i', 'p', 'p', 'e', 't', '.']

/-- The text between an opening `[` and a closing `]` that wrap all of it. -/
def unbracketed? : List Char → Option (List Char)
  | '[' :: chars => if chars.getLast? = some ']' then some chars.dropLast else none
  | _ => none

/-- A snippet reference is written bare, `snippet.name`, or in brackets, `[snippet.name]`. -/
def isSnippetText (text : String) : Bool :=
  snippetStart.isPrefixOf text.toList ||
    (unbracketed? text.toList).any snippetStart.isPrefixOf

/-- An atom that refers to a snippet. -/
def Node.isSnippet (node : Node) : Bool := node.text?.any isSnippetText

/-- The items of a list are what it lists. -/
@[simp] theorem Node.items_list (items : List Node) : (Node.list items).items = items := rfl

/-- An atom has no items. -/
@[simp] theorem Node.items_atom (text : String) : (Node.atom text).items = [] := rfl

/-- A menu that is made of entries has the shape of one. -/
@[simp] theorem Node.shape_menu (entries : List Node) :
    (Node.menu entries).shape = .menu entries := by
  simp [Node.menu, Node.shape]

/-- A submenu that is made of a name and entries has the shape of one. -/
@[simp] theorem Node.shape_submenu (name : Node) (entries : List Node) :
    (Node.submenu name entries).shape = .submenu (some name) entries := by
  simp [Node.submenu, Node.shape, Node.menuHead, Node.submenuHead]

end Menus
