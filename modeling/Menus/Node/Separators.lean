import Menus.Node

/-!
# Separators between entries

A separator divides what stands before it from what stands after it. So none is kept at either end
of a list of entries, and a run of several counts as one.
-/

namespace Menus

/-- Entries after an entry that was kept; `divided` says that separators came in between. -/
def tidyAfter (divided : Bool) : List Node → List Node
  | [] => []
  | entry :: entries =>
    if entry.isSeparator then tidyAfter true entries
    else if divided then .separator :: entry :: tidyAfter false entries
    else entry :: tidyAfter false entries

/-- The entries with exactly one separator wherever separators divide two of them, and no other. -/
def tidySeparators : List Node → List Node
  | [] => []
  | entry :: entries =>
    if entry.isSeparator then tidySeparators entries else entry :: tidyAfter false entries

end Menus
