import Menus.Node.Layout
import Menus.Node.Reduce
import Menus.Reading
import Menus.Text.Blank
import Menus.Text.LineBreak

/-!
# Reducing a menu document

A document is read, reduced and written again. This fails when there is nothing to reduce, when a
part of the document was left out because it is nested too deeply, so that writing the rest would
lose entries, and when the reduced tree has no written form.
-/

namespace Menus

/-- Why a document gives no text. -/
inductive DocumentError where
  /-- Nothing but blanks. -/
  | empty
  /-- A list is nested too deeply; the offset is that of the first such list. -/
  | nestingTooDeep (offset : Nat)
  /-- The reduced tree has no written form. -/
  | layout (error : LayoutError)
  deriving DecidableEq, Inhabited

/-- The wording shown to a user. -/
def DocumentError.message : DocumentError → String
  | .empty => "empty input, nothing to filter"
  | .nestingTooDeep offset => Anomaly.nestingMessage offset
  | .layout error => error.message

/-- The tree of a document, whose line breaks may be of both forms. Offsets of anomalies count the
bytes after every line break has become a line feed. -/
def parseDocument (text : String) : Parse := parse (String.ofList (toLf text.toList))

/-- The text with the line breaks that were asked for. -/
def withLineBreaks (crlf : Bool) (text : String) : String :=
  if crlf then String.ofList (toCrlf text.toList) else text

/-- The reduced form of a document. -/
def reduceDocument (text : String) (ending : LineEnding := .auto) : Except DocumentError String :=
  if isBlankText text then .error .empty
  else
    let parse := parseDocument text
    match parse.anomalies.findSome? Anomaly.tooDeep? with
    | some offset => .error (.nestingTooDeep offset)
    | none =>
      match (reduce parse.root).print with
      | .error error => .error (.layout error)
      | .ok written => .ok (withLineBreaks (ending.usesCrlf text) written)

end Menus
