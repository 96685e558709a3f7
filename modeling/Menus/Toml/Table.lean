import Menus.Toml.Statement

/-!
# Tables of a TOML text

The statements of a text build one table. No key is given a value twice, a table has at most one
line of its own, and what was complete when it was written stays as it is.
-/

namespace Menus.Toml

/-- A table gets its own line. It may have been implied by the line of a table below it. -/
def addHeader (key : String) (origin : Origin) (entries : Entries) : Option Value :=
  match entries.get? key with
  | none => some (.table origin (entries ++ [(key, .table .header [])]))
  | some (.table .implied inner) => some (.table origin (entries.set key (.table .header inner)))
  | some _ => none

/-- A list of tables gets one more table. -/
def addListHeader (key : String) (origin : Origin) (entries : Entries) : Option Value :=
  match entries.get? key with
  | none => some (.table origin (entries ++ [(key, .list true [.table .header []])]))
  | some (.list true items) =>
    some (.table origin (entries.set key (.list true (items ++ [.table .header []]))))
  | some _ => none

/-- A change to the table below the top that some keys lead to. -/
def changeAt (path : List String) (change : Origin → Entries → Option Value) (top : Entries) :
    Option Entries :=
  match changeTable false change path .header top with
  | some (.table _ entries) => some entries
  | _ => none

/-- A change to the table that holds the last key of a path. -/
def changeAbove (path : List String) (change : String → Origin → Entries → Option Value)
    (top : Entries) : Option Entries :=
  match path.getLast? with
  | none => none
  | some key => changeAt path.dropLast (change key) top

/-- Carry out statements, of which the assignments belong to the table that `current` leads to. -/
def build (current : List String) (top : Entries) : List Statement → Option Entries
  | [] => some top
  | .header path :: statements => do build path (← changeAbove path addHeader top) statements
  | .listHeader path :: statements =>
    do build path (← changeAbove path addListHeader top) statements
  | .assign path value :: statements =>
    do build current (← changeAt current (assignKey path value) top) statements

/-- The table that a text writes, unless there is a mistake in it. -/
def parse? (text : String) : Option Entries := do build [] [] (← statements? text)

end Menus.Toml
