import MarkupFilter.Markup.Element
import MarkupFilter.Markup.Rules

/-!
# Pieces of markup

The units of the markup grammar, decoded: what a filter decides on one by one.

## Main definitions

* `Piece` — a decoded unit.
* `Piece.ofToken` — the piece that a unit token stands for.
* `Piece.ofText` — the pieces of a text.
-/

set_option autoImplicit false

namespace MarkupFilter

open Grammar

/-- A decoded unit of markup. -/
inductive Piece where
  | text (raw : String)
  /-- A comment, without its delimiters. -/
  | comment (body : String)
  | startTag (e : Element)
  /-- An end tag as written, and its name. -/
  | endTag (name raw : String)
  /-- The opener of a conditional comment. -/
  | conditionalStart (e : Element)
  /-- The closer of a conditional comment, as written. -/
  | conditionalEnd (raw : String)
  deriving DecidableEq, Repr

namespace Piece

/-- The kind of quotes that the rule of a value implies. -/
def quoteOf (rule : String) : Option Char :=
  if rule = "doubleQuoted" then some '"'
  else if rule = "singleQuoted" then some '\''
  else none

/-- The attribute that an attribute token stands for. -/
def attributeOf (token : Token) : Attribute :=
  let name := token.childText "attrName"
  match (token.child? "attrValue").bind fun value => value.children.head? with
  | some value => { name := name, value := some value.text, quote := quoteOf value.name }
  | none => { name := name }

/-- The element that a start tag token stands for. Of attributes with one name the first counts. -/
def elementOf (token : Token) : Element :=
  { name := token.childText "tagName"
    attributes := (token.childrenNamed "attribute").foldl (fun as t => as.push (attributeOf t)) {}
    selfClosed := (token.child? "selfClose").isSome }

/-- The piece that a unit token stands for, by the rule that matched inside it. -/
def ofToken (unit : Token) : Piece :=
  match unit.children.head? with
  | none => .text unit.text
  | some t =>
    if t.name = "comment" then .comment (t.childText "commentBody")
    else if t.name = "startTag" then .startTag (elementOf t)
    else if t.name = "endTag" then .endTag (t.childText "tagName") t.text
    else if t.name = "ieHackStart" then
      .conditionalStart { name := t.text, condition := some (t.childText "ieCondition") }
    else if t.name = "ieHackEnd" then .conditionalEnd t.text
    else .text t.text

/-- The pieces of `input`, read one by one. -/
def ofText (input : String) : List Piece :=
  (Markup.unitTokens input).map ofToken

/-- The pieces of `input`, read as one document. What the document leaves unread is text. -/
def ofDocument (input : String) : List Piece :=
  match Markup.documentToken input with
  | none => if input.isEmpty then [] else [.text input]
  | some document =>
    let rest := input.toList.drop document.window.size
    document.children.map ofToken ++ if rest.isEmpty then [] else [.text (String.ofList rest)]

end Piece

end MarkupFilter
