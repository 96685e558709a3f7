import Menus.Proofs.Conservation

/-!
# What the submenus of a reduced tree offer

A submenu shows a user its name and, behind it, the snippets among its entries. A reduction takes
submenus away from the outside, from the inside, and from the middle of a chain, but a submenu that
is left has the name that it had, and offers the snippets that it offered, in the same order.
-/

namespace Menus

/-- What a user finds in a submenu. -/
structure Offer where
  /-- The name of the submenu; just `(submenu)` has none. -/
  name : Option Node
  /-- The snippets among its entries at any depth, in document order. -/
  snippets : List String
  deriving DecidableEq

namespace Node

mutual

/-- The offers of a tree and of all submenus that are reached through its entries, in document
order. -/
def offers : Node → List Offer
  | .atom _ => []
  | .list [] => []
  | .list (head :: items) =>
    if head = menuHead then offersOfAll items
    else if head = submenuHead then
      match items with
      | [] => [⟨none, []⟩]
      | name :: entries => ⟨some name, snippetsOfAll entries⟩ :: offersOfAll entries
    else head.offers ++ offersOfAll items

/-- The offers of some entries, one entry after the other. -/
def offersOfAll : List Node → List Offer
  | [] => []
  | item :: items => item.offers ++ offersOfAll items

end

/-- The offers of items are those of each of them. -/
theorem offersOfAll_eq (items : List Node) : offersOfAll items = items.flatMap offers := by
  induction items with
  | nil => rfl
  | cons item items ih => simp [offersOfAll, ih]

/-- A menu offers what its entries offer. -/
theorem offers_menu (entries : List Node) : (menu entries).offers = entries.flatMap offers := by
  simp [menu, offers, offersOfAll_eq]

/-- A submenu offers its snippets under its name, and then what its entries offer. -/
theorem offers_submenu (name : Node) (entries : List Node) :
    (submenu name entries).offers =
      ⟨some name, entries.flatMap snippets⟩ :: entries.flatMap offers := by
  simp [submenu, offers, menuHead, submenuHead, offersOfAll_eq, snippetsOfAll_eq]

/-- A group offers what its items offer. -/
theorem offers_group {items : List Node} (hgroup : IsGroup items) :
    (Node.list items).offers = items.flatMap offers := by
  cases items with
  | nil => rfl
  | cons head rest =>
    rw [offers.eq_def]
    simp only [if_neg hgroup.ne_menuHead, if_neg hgroup.ne_submenuHead, offersOfAll_eq,
      List.flatMap_cons]

/-- The offers of the entries are offers of the tree. -/
theorem flatMap_offers_entries (node : Node) :
    (node.entries.flatMap offers).Sublist node.offers := by
  cases node using byShape with
  | atom text => simp
  | menu entries => rw [entries_menu, offers_menu]
  | nameless => simp
  | submenu name entries =>
    rw [entries_submenu, offers_submenu]
    exact List.sublist_cons_self _ _
  | group items hgroup => rw [entries_group hgroup, offers_group hgroup]

/-- Pruning takes submenus away, and changes nothing about what the others offer. -/
theorem Prunes.offers_sublist {node pruned : Node} (h : Prunes node pruned) :
    pruned.offers.Sublist node.offers := by
  induction h with
  | atom => exact .refl _
  | @menu entries hentries ih =>
    have htidy := (tidySeparators_sublist (absorb (entries.filterMap prune))).flatMap offers
    have habsorb := flatMap_absorb_sublist flatMap_offers_entries (entries.filterMap prune)
    rw [offers_menu, offers_menu]
    exact htidy.trans (habsorb.trans (flatMap_filterMap_prune_sublist ih))
  | @sole name entry entries hentries hsole ih =>
    have hentry : entry.offers.Sublist _ := parts_sublist_of_mem (mem_of_sole? hsole).1
    rw [offers_submenu]
    exact (hentry.trans (flatMap_filterMap_prune_sublist ih)).cons _
  | @submenu name entries hentries hcontent hsole ih =>
    have htidy := (tidySeparators_sublist (entries.filterMap prune)).flatMap offers
    have hsnippets : (tidySeparators (entries.filterMap prune)).flatMap snippets =
        entries.flatMap snippets := by
      rw [flatMap_snippets_tidySeparators,
        flatMap_snippets_filterMap_prune fun entry _ => flatMap_snippets_prune entry]
    rw [offers_submenu, offers_submenu, hsnippets]
    exact (htidy.trans (flatMap_filterMap_prune_sublist ih)).cons_cons _
  | @group items hgroup hitems hcontent ih =>
    have htidy := (tidySeparators_sublist (items.filterMap prune)).flatMap offers
    have hkept : IsGroup (tidySeparators (items.filterMap prune)) :=
      isGroup_of_reduced (reduced_of_mem_tidySeparators (reduced_of_mem_filterMap_prune items))
    rw [offers_group hkept, offers_group hgroup]
    exact htidy.trans (flatMap_filterMap_prune_sublist ih)

/-- Nor does pruning some items one by one. -/
theorem flatMap_offers_filterMap_prune (items : List Node) :
    ((items.filterMap prune).flatMap offers).Sublist (items.flatMap offers) :=
  flatMap_filterMap_prune_sublist fun _ _ _ h => (prunes_of_prune h).offers_sublist

/-- **A submenu that is left offers what it did.** The names of the submenus of a pruned tree, each
with the snippets behind it, are some of those of the tree, in the same order. This holds with the
whole tree counted among its submenus, and of the submenus among its entries alone. -/
theorem offers_of_prune {node pruned : Node} (h : node.prune = some pruned) :
    pruned.offers.Sublist node.offers ∧
      (pruned.entries.flatMap offers).Sublist (node.entries.flatMap offers) := by
  have hprunes := prunes_of_prune h
  refine ⟨hprunes.offers_sublist, ?_⟩
  have hentries := flatMap_offers_filterMap_prune node.entries
  cases hprunes with
  | atom => exact .refl _
  | menu => simpa only [entries_menu, offers_menu] using (prunes_of_prune h).offers_sublist
  | sole _ hsole =>
    rw [entries_submenu] at hentries ⊢
    have hentry : pruned.offers.Sublist _ := parts_sublist_of_mem (mem_of_sole? hsole).1
    exact (flatMap_offers_entries pruned).trans (hentry.trans hentries)
  | submenu =>
    rw [entries_submenu] at hentries ⊢
    exact ((tidySeparators_sublist _).flatMap offers).trans hentries
  | group hgroup =>
    have hkept := (flatMap_offers_entries _).trans (prunes_of_prune h).offers_sublist
    rw [offers_group hgroup] at hkept
    rwa [entries_group hgroup]

/-- Of three submenus around each other the outer one goes and the others keep their names, although
the inner one also loses a submenu with a single entry, which has a snippet for its name. -/
theorem offers_of_prune_chain :
    (menu [.atom "snippet.x", submenu (.atom "a") [submenu (.atom "b") [submenu (.atom "c")
        [submenu (.atom "snippet.d") [.atom "snippet.y", .atom "lost"], separator, separator,
          .atom "snippet.z"]]]]).prune =
      some (menu [.atom "snippet.x", submenu (.atom "b") [submenu (.atom "c")
        [.atom "snippet.y", separator, .atom "snippet.z"]]]) ∧
    [Offer.mk (some (.atom "b")) ["snippet.y", "snippet.z"],
        ⟨some (.atom "c"), ["snippet.y", "snippet.z"]⟩].Sublist
      [⟨some (.atom "a"), ["snippet.y", "snippet.z"]⟩,
        ⟨some (.atom "b"), ["snippet.y", "snippet.z"]⟩,
        ⟨some (.atom "c"), ["snippet.y", "snippet.z"]⟩,
        ⟨some (.atom "snippet.d"), ["snippet.y"]⟩] := by
  have hpruned : (menu [.atom "snippet.x", submenu (.atom "a") [submenu (.atom "b")
        [submenu (.atom "c")
          [submenu (.atom "snippet.d") [.atom "snippet.y", .atom "lost"], separator, separator,
            .atom "snippet.z"]]]]).prune =
      some (menu [.atom "snippet.x", submenu (.atom "b") [submenu (.atom "c")
        [.atom "snippet.y", separator, .atom "snippet.z"]]]) := by decide
  exact ⟨hpruned, (offers_of_prune hpruned).1⟩

end Node

end Menus
