/-!
# Shortest edits between two lists of lines

The edits that turn one list into another are found by dividing and conquering: what both lists
start and end with is kept, and the rest is divided at a point that a shortest way between the lists
passes through. That point is found by following furthest ways from both ends until they meet. In
the end added lines slide as far down as they can.
-/

namespace Menus.Difference

/-- A run of lines that is in both lists, only in the old one, or only in the new one. -/
inductive Edit where
  | keep (lines : List String)
  | remove (lines : List String)
  | add (lines : List String)
  deriving DecidableEq, Inhabited

/-- How many lines two lists share from their first line on. -/
def commonLength : List String → List String → Nat
  | first :: firsts, second :: seconds =>
    if first = second then commonLength firsts seconds + 1 else 0
  | _, _ => 0

/-! ### The dividing point -/

/-- For every diagonal, which is the difference of the two positions, the furthest position in the
old list that was reached. -/
structure Reach where
  /-- Where the diagonal zero is found. -/
  middle : Nat
  positions : Array Nat
  deriving Inhabited

namespace Reach

/-- Nothing was reached on any of the diagonals up to a bound. -/
def start (bound : Nat) : Reach := ⟨bound + 1, Array.replicate (2 * bound + 3) 0⟩

/-- The furthest position on a diagonal. -/
def get (reach : Reach) (diagonal : Int) : Nat :=
  reach.positions.getD (diagonal + reach.middle).toNat 0

/-- A further position on a diagonal. -/
def set (reach : Reach) (diagonal : Int) (position : Nat) : Reach :=
  { reach with
    positions := reach.positions.setIfInBounds (diagonal + reach.middle).toNat position }

/-- The position on a diagonal after one more edit, from the neighbour that reached further. -/
def step (reach : Reach) (edits : Nat) (diagonal : Int) : Nat :=
  if diagonal = -edits ||
      (diagonal ≠ edits && reach.get (diagonal - 1) < reach.get (diagonal + 1)) then
    reach.get (diagonal + 1)
  else reach.get (diagonal - 1) + 1

end Reach

/-- The diagonals that so many edits can lead to, the largest one first. -/
def diagonals (edits : Nat) : List Int :=
  (List.range (edits + 1)).map fun (count : Nat) => (edits : Int) - 2 * (count : Int)

/-- One more edit on each of some diagonals, and the shared lines after it. `meets` says whether a
diagonal with its new position completes a way; then the search ends with the positions in both
lists before and after the shared lines. -/
def advance (old new : List String) (edits : Nat) (meets : Int → Nat → Bool) (reach : Reach) :
    List Int → Sum (Nat × Nat × Nat) Reach
  | [] => .inr reach
  | diagonal :: others =>
    let x := reach.step edits diagonal
    let y := ((x : Int) - diagonal).toNat
    let shared := commonLength (old.drop x) (new.drop y)
    if meets diagonal (x + shared) then .inl (x, y, shared)
    else advance old new edits meets (reach.set diagonal (x + shared)) others

/-- Search with one more edit after another for a point of a shortest way, from both ends at once.
The lists are also given from their ends. -/
def searchSplit (old new oldReversed newReversed : List String) :
    Nat → Nat → Reach → Reach → Option (Nat × Nat)
  | 0, _, _, _ => none
  | steps + 1, edits, forward, backward =>
    let delta := (old.length : Int) - new.length
    let isOdd := delta % 2 ≠ 0
    let meetsForward (diagonal : Int) (x : Nat) : Bool :=
      isOdd && (diagonal - delta).natAbs + 1 ≤ edits &&
        old.length ≤ x + backward.get (delta - diagonal)
    match advance old new edits meetsForward forward (diagonals edits) with
    | .inl (x, y, _) => some (x, y)
    | .inr forward =>
      let meetsBackward (diagonal : Int) (x : Nat) : Bool :=
        !isOdd && (diagonal - delta).natAbs ≤ edits &&
          old.length ≤ x + forward.get (delta - diagonal)
      match advance oldReversed newReversed edits meetsBackward backward (diagonals edits) with
      | .inl (x, y, shared) => some (old.length - (x + shared), new.length - (y + shared))
      | .inr backward =>
        searchSplit old new oldReversed newReversed steps (edits + 1) forward backward

/-- A point of a shortest way between two lists. -/
def split? (old new : List String) : Option (Nat × Nat) :=
  let bound := (old.length + new.length + 1) / 2 + 1
  searchSplit old new old.reverse new.reverse bound 0 (.start bound) (.start bound)

/-! ### The edits -/

/-- A run of lines, unless there are none. -/
def unlessEmpty (edit : List String → Edit) (lines : List String) : List Edit :=
  if lines = [] then [] else [edit lines]

/-- The edits between two lists. Both parts of a division are shorter than the whole, so as many
divisions as there are lines are enough. -/
def shortestEdits : Nat → List String → List String → List Edit
  | 0, old, new => unlessEmpty .remove old ++ unlessEmpty .add new
  | steps + 1, old, new =>
    let start := commonLength old new
    let kept := old.take start
    let old := old.drop start
    let new := new.drop start
    let shared := commonLength old.reverse new.reverse
    let keptAfter := old.drop (old.length - shared)
    let old := old.take (old.length - shared)
    let new := new.take (new.length - shared)
    let edits :=
      if old = [] || new = [] then unlessEmpty .remove old ++ unlessEmpty .add new
      else
        match split? old new with
        | some (x, y) =>
          shortestEdits steps (old.take x) (new.take y) ++
            shortestEdits steps (old.drop x) (new.drop y)
        | none => [.remove old, .add new]
    unlessEmpty .keep kept ++ edits ++ unlessEmpty .keep keptAfter

/-! ### Added lines slide down -/

/-- Kept lines in front of other edits, in one run with those the edits start with. -/
def keepBefore (lines : List String) : List Edit → List Edit
  | .keep others :: edits => .keep (lines ++ others) :: edits
  | edits => unlessEmpty .keep lines ++ edits

/-- Kept lines at the end of other edits, which are given from the last one on. -/
def keepAfter (lines : List String) : List Edit → List Edit
  | .keep others :: before => .keep (others ++ lines) :: before
  | before => unlessEmpty .keep lines ++ before

/-- Move added lines up over removed ones, into one run with lines added before, and over kept
lines as long as these end like the added ones. The edits before are given from the last one on. -/
def slideUp : Nat → List Edit → List String → List Edit → List Edit × List String × List Edit
  | 0, before, added, after => (before, added, after)
  | steps + 1, before, added, after =>
    match before with
    | [] => (before, added, after)
    | .remove lines :: before => slideUp steps before added (.remove lines :: after)
    | .add lines :: before => slideUp steps before (lines ++ added) after
    | .keep lines :: before =>
      let shared := commonLength lines.reverse added.reverse
      if shared = 0 then
        if lines = [] then slideUp steps before added after
        else (.keep lines :: before, added, after)
      else
        let moved := added.drop (added.length - shared)
        slideUp steps
          (unlessEmpty .keep (lines.take (lines.length - shared)) ++ before)
          (moved ++ added.take (added.length - shared)) (keepBefore moved after)

/-- Move added lines down in the same way. -/
def slideDown : Nat → List Edit → List String → List Edit → List Edit × List String × List Edit
  | 0, before, added, after => (before, added, after)
  | steps + 1, before, added, after =>
    match after with
    | [] => (before, added, after)
    | .remove lines :: after => slideDown steps (.remove lines :: before) added after
    | .add lines :: after => slideDown steps before (added ++ lines) after
    | .keep lines :: after =>
      let shared := commonLength lines added
      if shared = 0 then
        if lines = [] then slideDown steps before added after
        else (before, added, .keep lines :: after)
      else
        let moved := added.take shared
        slideDown steps (keepAfter moved before) (added.drop shared ++ moved)
          (unlessEmpty .keep (lines.drop shared) ++ after)

/-- Let the added lines of all edits slide, from the first ones on. The edits before are given from
the last one on. -/
def slideAll (bound : Nat) : Nat → List Edit → List Edit → List Edit
  | 0, before, after => before.reverse ++ after
  | _, before, [] => before.reverse
  | steps + 1, before, .add lines :: after =>
    let (before, added, after) := slideUp bound before lines after
    let (before, added, after) := slideDown bound before added after
    slideAll bound steps (.add added :: before) after
  | steps + 1, before, edit :: after => slideAll bound steps (edit :: before) after

/-- The edits that turn the old lines into the new ones. -/
def edits (old new : List String) : List Edit :=
  let count := old.length + new.length + 1
  let found := shortestEdits count old new
  slideAll (4 * count) (2 * count) [] found

end Menus.Difference
