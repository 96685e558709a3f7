import Menus.Node.Layout
import Menus.Proofs.Tree

/-!
# The parts of a written tree

A tree is written when all of its parts are, and the text is put together from theirs. This file
takes a successful layout apart, by the shape of the node and entry by entry, and shows that nothing
but the name of a submenu can stand in its way.
-/

namespace Menus

/-- What comes before an entry: a blank before an atom, a new line before a list. -/
def LineParent.lead (parent : LineParent) (level : Nat) : Node → List Char
  | .atom _ => [' ']
  | .list items => '\n' :: parent.margin level (.list items)

namespace Node

/-- Every submenu in the tree is named by an atom. -/
def HasAtomNames (node : Node) : Prop :=
  ∀ inner, node.Contains inner → inner.isSubmenu = true →
    ∃ name entries, inner = submenu (.atom name) entries

/-- Two steps of a layout succeed exactly if each of them does. -/
private theorem bind_eq_ok {α β : Type} {result : Except LayoutError α}
    {next : α → Except LayoutError β} {value : β} :
    (result >>= next) = .ok value ↔ ∃ first, result = .ok first ∧ next first = .ok value := by
  cases result with
  | error error => simp [bind, Except.bind]
  | ok first => simp [bind, Except.bind]

/-! ### Entries and members of a group -/

/-- An atom is laid out as its text. -/
@[simp] theorem layout_atom (level : Nat) (text : String) :
    (Node.atom text).layout level = .ok text.toList := by
  rw [layout]

/-- The written form of several items, each with what comes before it. -/
def layoutAll (lead : Node → List Char) (level : Nat) :
    List Node → Except LayoutError (List Char)
  | [] => .ok []
  | item :: items => do
    let first ← item.layout level
    let others ← layoutAll lead level items
    return lead item ++ (first ++ others)

/-- Entries are laid out after the leads of their parent. -/
theorem layoutEntries_eq (parent : LineParent) (level : Nat) (entries : List Node) :
    layoutEntries parent level entries = layoutAll (parent.lead level) level entries := by
  induction entries with
  | nil => rw [layoutEntries, layoutAll]
  | cons entry entries ih =>
    cases entry with
    | atom text => simp [layoutEntries, layoutAll, ih, LineParent.lead, bind, Except.bind]
    | list items => simp [layoutEntries, layoutAll, ih, LineParent.lead]

/-- Other items are laid out after a space each. -/
theorem layoutOthers_eq (level : Nat) (items : List Node) :
    layoutOthers level items = layoutAll (fun _ => [' ']) level items := by
  induction items with
  | nil => rw [layoutOthers, layoutAll]
  | cons item items ih => simp [layoutOthers, layoutAll, ih]

/-- Items are laid out exactly if the first and the others are. -/
theorem layoutAll_cons_eq_ok {lead : Node → List Char} {level : Nat} {item : Node}
    {items : List Node} {chars : List Char} :
    layoutAll lead level (item :: items) = .ok chars ↔
      ∃ first others, item.layout level = .ok first ∧ layoutAll lead level items = .ok others ∧
        chars = lead item ++ (first ++ others) := by
  simp only [layoutAll, bind_eq_ok]
  constructor
  · rintro ⟨first, hfirst, others, hothers, h⟩
    cases h
    exact ⟨first, others, hfirst, hothers, rfl⟩
  · rintro ⟨first, others, hfirst, hothers, rfl⟩
    exact ⟨first, hfirst, others, hothers, rfl⟩

/-! ### Lists by shape -/

/-- A menu is laid out around its entries. -/
theorem layout_menu_eq_ok {level : Nat} {entries : List Node} {chars : List Char} :
    (menu entries).layout level = .ok chars ↔
      ∃ inside, layoutAll (LineParent.menu.lead (level + 1)) (level + 1) entries = .ok inside ∧
        chars = '(' :: ("menu".toList ++ (inside ++ [')'])) := by
  rw [menu, layout.eq_def]
  simp only [if_true, layoutEntries_eq, bind_eq_ok]
  constructor
  · rintro ⟨inside, hinside, h⟩
    cases h
    exact ⟨inside, hinside, by simp⟩
  · rintro ⟨inside, hinside, rfl⟩
    exact ⟨inside, hinside, by simp [pure, Except.pure]⟩

/-- A submenu without a name cannot be laid out. -/
theorem layout_nameless (level : Nat) :
    (Node.list [submenuHead]).layout level = .error .nameMissing := by
  simp [layout, menuHead, submenuHead]

/-- Nor can one whose name is a list. -/
theorem layout_list_named (level : Nat) (name entries : List Node) :
    (submenu (.list name) entries).layout level = .error .nameNotAtom := by
  simp [submenu, layout, menuHead, submenuHead]

/-- A submenu is laid out as its name before its entries if the name is an atom. -/
theorem layout_submenu_eq_ok {level : Nat} {name : Node} {entries : List Node}
    {chars : List Char} :
    (submenu name entries).layout level = .ok chars ↔
      ∃ text inside, name = .atom text ∧
        layoutAll (LineParent.submenu.lead (level + 1)) (level + 1) entries = .ok inside ∧
        chars = '(' :: ("submenu".toList ++ (' ' :: (text.toList ++ (inside ++ [')'])))) := by
  cases name with
  | list items => simp [layout_list_named]
  | atom name =>
    rw [submenu, layout, if_neg (by simp [menuHead, submenuHead]), if_pos rfl, layoutEntries_eq,
      bind_eq_ok]
    constructor
    · rintro ⟨inside, hinside, h⟩
      cases h
      exact ⟨name, inside, rfl, hinside, by simp⟩
    · rintro ⟨_, inside, ⟨⟩, hinside, rfl⟩
      exact ⟨inside, hinside, by simp [pure, Except.pure]⟩

/-- A list without items is a pair of parentheses. -/
theorem layout_group_nil (level : Nat) : (Node.list []).layout level = .ok ['(', ')'] := by
  rw [layout]

/-- A group is laid out on one line, with spaces between its items. -/
theorem layout_group_cons_eq_ok {level : Nat} {item : Node} {items : List Node}
    {chars : List Char} (hgroup : IsGroup (item :: items)) :
    (Node.list (item :: items)).layout level = .ok chars ↔
      ∃ first others, item.layout level = .ok first ∧
        layoutAll (fun _ => [' ']) level items = .ok others ∧
        chars = '(' :: (first ++ (others ++ [')'])) := by
  rw [layout.eq_def]
  simp only [if_neg hgroup.ne_menuHead, if_neg hgroup.ne_submenuHead, layoutOthers_eq,
    bind_eq_ok]
  constructor
  · rintro ⟨first, hfirst, others, hothers, h⟩
    cases h
    exact ⟨first, others, hfirst, hothers, by simp⟩
  · rintro ⟨first, others, hfirst, hothers, rfl⟩
    exact ⟨first, hfirst, others, hothers, by simp [pure, Except.pure]⟩

/-! ### When a tree is written -/

/-- In an atom there is no submenu without a name. -/
@[simp] theorem hasAtomNames_atom (text : String) : (Node.atom text).HasAtomNames := by
  intro inner hinner hsubmenu
  obtain rfl | ⟨item, hitem, -⟩ := hinner.cases_head
  · simp at hsubmenu
  · simp at hitem

/-- Names are looked at in a list itself and in each of its items. -/
theorem hasAtomNames_list {items : List Node} :
    (Node.list items).HasAtomNames ↔
      ((Node.list items).isSubmenu = true →
        ∃ name entries, Node.list items = submenu (.atom name) entries) ∧
      ∀ item ∈ items, item.HasAtomNames := by
  constructor
  · intro h
    exact ⟨h _ .refl, fun item hitem inner hinner => h inner (.head hitem hinner)⟩
  · rintro ⟨hlist, hitems⟩ inner hinner hsubmenu
    obtain rfl | ⟨item, hitem, hinner⟩ := hinner.cases_head
    · exact hlist hsubmenu
    · exact hitems item hitem inner hinner hsubmenu

/-- Where all submenus have names, they have them in every item. -/
theorem HasAtomNames.of_mem_items {items : List Node} {item : Node}
    (h : (Node.list items).HasAtomNames) (hitem : item ∈ items) : item.HasAtomNames :=
  (hasAtomNames_list.mp h).2 item hitem

/-- Items that can each be laid out can be laid out together. -/
private theorem layoutAll_ok (lead : Node → List Char) {level : Nat} {items : List Node}
    (hitems : ∀ item ∈ items, ∃ chars, item.layout level = .ok chars) :
    ∃ chars, layoutAll lead level items = .ok chars := by
  induction items with
  | nil => exact ⟨[], by rw [layoutAll]⟩
  | cons item items ih =>
    obtain ⟨first, hfirst⟩ := hitems item (by simp)
    obtain ⟨others, hothers⟩ := ih fun item h => hitems item (by simp [h])
    exact ⟨_, layoutAll_cons_eq_ok.mpr ⟨first, others, hfirst, hothers, rfl⟩⟩

/-- A tree whose submenus are named by atoms is written, at any level. -/
theorem HasAtomNames.layout_ok {node : Node} (h : node.HasAtomNames) (level : Nat) :
    ∃ chars, node.layout level = .ok chars := by
  induction node using byShape generalizing level with
  | atom text => exact ⟨_, layout_atom level text⟩
  | menu entries ih =>
    obtain ⟨inside, hinside⟩ := layoutAll_ok (LineParent.menu.lead (level + 1))
      fun entry hentry => ih entry hentry (h.of_mem_items (by simp [hentry])) (level + 1)
    exact ⟨_, layout_menu_eq_ok.mpr ⟨inside, hinside, rfl⟩⟩
  | nameless =>
    obtain ⟨name, entries, hnode⟩ := h _ .refl (by simp [isSubmenu])
    simp [submenu] at hnode
  | submenu name entries _ ih =>
    obtain ⟨text, others, hnode⟩ := h _ .refl (isSubmenu_submenu name entries)
    obtain ⟨rfl, rfl⟩ : name = .atom text ∧ entries = others := by simpa [submenu] using hnode
    obtain ⟨inside, hinside⟩ := layoutAll_ok (LineParent.submenu.lead (level + 1))
      fun entry hentry => ih entry hentry (h.of_mem_items (by simp [hentry])) (level + 1)
    exact ⟨_, layout_submenu_eq_ok.mpr ⟨text, inside, rfl, hinside, rfl⟩⟩
  | group items hgroup ih =>
    cases items with
    | nil => exact ⟨_, layout_group_nil level⟩
    | cons item items =>
      obtain ⟨first, hfirst⟩ := ih item (by simp) (h.of_mem_items (by simp)) level
      obtain ⟨others, hothers⟩ : ∃ chars, layoutAll (fun _ => [' ']) level items = .ok chars :=
        layoutAll_ok _ fun member hmember =>
          ih member (by simp [hmember]) (h.of_mem_items (by simp [hmember])) level
      exact ⟨_, (layout_group_cons_eq_ok hgroup).mpr ⟨first, others, hfirst, hothers, rfl⟩⟩

/-! ### Whole texts -/

/-- A tree is written as it is laid out from the start of a line. -/
theorem print_eq_ok_iff {node : Node} {text : String} :
    node.print = .ok text ↔ node.layout 0 = .ok text.toList := by
  rw [print]
  cases node.layout 0 with
  | error error => simp [Except.map]
  | ok chars =>
    simp only [Except.map, Except.ok.injEq]
    constructor
    · rintro rfl
      exact String.toList_ofList.symm
    · rintro rfl
      exact String.ofList_toList

end Node

end Menus
