import Menus.Difference.Edits

/-!
# Differences between two texts, for a reader

Changed lines are shown with up to three unchanged lines around them. Changes that are further
apart than that are shown separately, each under the number of its first old line.
-/

namespace Menus.Difference

/-- The lines of a text, each with its line break, which is a carriage return, a line feed, or
both. `collected` are the characters of the line at hand, latest first. -/
def linesFrom (collected : List Char) : List Char → List String
  | [] => if collected = [] then [] else [String.ofList collected.reverse]
  | '\r' :: '\n' :: chars => String.ofList ('\n' :: '\r' :: collected).reverse :: linesFrom [] chars
  | c :: chars =>
    if c = '\r' || c = '\n' then String.ofList (c :: collected).reverse :: linesFrom [] chars
    else linesFrom (c :: collected) chars

/-- The lines of a text. -/
def lines (text : String) : List String := linesFrom [] text.toList

/-- Neighbouring lines that are either all unchanged or all changed. -/
inductive Section where
  | same (lines : List String)
  | changed (removed added : List String)
  deriving DecidableEq, Inhabited

/-- The sections of some edits. -/
def sections : List Edit → List Section
  | [] => []
  | .keep lines :: edits =>
    match sections edits with
    | .same others :: rest => .same (lines ++ others) :: rest
    | rest => .same lines :: rest
  | .remove lines :: edits =>
    match sections edits with
    | .changed removed added :: rest => .changed (lines ++ removed) added :: rest
    | rest => .changed lines [] :: rest
  | .add lines :: edits =>
    match sections edits with
    | .changed removed added :: rest => .changed removed (lines ++ added) :: rest
    | rest => .changed [] lines :: rest

/-- Changes that are shown together, and the number of old lines before them. -/
structure Excerpt where
  before : Nat
  sections : List Section
  deriving DecidableEq, Inhabited

/-- The unchanged lines that are shown on each side of a change. -/
def context : Nat := 3

/-- Cut sections into excerpts. `position` counts the old lines so far; `shown` are the sections of
the excerpt at hand, latest first, and `start` is where it starts. -/
def excerptsFrom (start position : Nat) (shown : List Section) : List Section → List Excerpt
  | [] =>
    match shown with
    | [] => []
    | [.same _] => []
    | shown => [⟨start, shown.reverse⟩]
  | .changed removed added :: rest =>
    excerptsFrom start (position + removed.length) (.changed removed added :: shown) rest
  | .same lines :: rest =>
    let after := position + lines.length
    if shown = [] then
      let kept := min context lines.length
      excerptsFrom (after - kept) after [.same (lines.drop (lines.length - kept))] rest
    else if rest = [] then
      [⟨start, (Section.same (lines.take context) :: shown).reverse⟩]
    else if 2 * context < lines.length then
      ⟨start, (Section.same (lines.take context) :: shown).reverse⟩ ::
        excerptsFrom (after - context) after [.same (lines.drop (lines.length - context))] rest
    else excerptsFrom start after (.same lines :: shown) rest

/-- The excerpts that show all changes between two texts. -/
def excerpts (old new : String) : List Excerpt :=
  excerptsFrom 0 0 [] (sections (edits (lines old) (lines new)))

/-- A line break for a line that comes without one. -/
def closeLine (line : String) : String :=
  match line.toList.getLast? with
  | some '\n' => ""
  | some '\r' => ""
  | _ => "\n"

/-- An unchanged line. -/
def sameLine (line : String) : String := "\x1b[0m " ++ line ++ closeLine line

/-- A changed line, in the colour of its sign. -/
def changedLine (colour sign line : String) : String :=
  "\x1b[" ++ colour ++ "m" ++ sign ++ line ++ "\x1b[0m" ++ closeLine line

/-- The lines of a section: unchanged ones, or removed ones in red before added ones in green. -/
def Section.text : Section → String
  | .same lines => String.join (lines.map sameLine)
  | .changed removed added =>
    String.join (removed.map (changedLine "31" "-")) ++
      String.join (added.map (changedLine "32" "+"))

/-- An excerpt under a line that names the file and the first line shown. -/
def Excerpt.text (name : String) (excerpt : Excerpt) : String :=
  s!"Diff in {name}:{excerpt.before + 1}:\n" ++ String.join (excerpt.sections.map Section.text)

/-- The differences between two texts of a file. -/
def report (name old new : String) : String :=
  "---\n".intercalate ((excerpts old new).map (Excerpt.text name))

end Menus.Difference
