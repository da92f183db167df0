import MarkupFilter.Markup.Attributes

/-!
# Elements and other content

## Main definitions

* `Ending` — what has become of an element's end tag.
* `Element` — an element, or the opener of a conditional comment.
* `Content` — what a node of a markup tree holds.
-/

set_option autoImplicit false

namespace MarkupFilter

/-! ## Elements -/

/-- What has become of the end tag of an element. -/
inductive Ending where
  /-- None was seen so far. -/
  | missing
  /-- None was seen, but an element around it has ended. -/
  | overdue
  /-- It was seen in its place. -/
  | closed
  /-- It was seen after an element around it had ended. The element is written without it. -/
  | crossClosed
  deriving DecidableEq, Repr

/-- An element. With a condition it is the opener of a conditional comment, and its name is the
opener as it was written. -/
structure Element where
  name : String
  condition : Option String := none
  attributes : Attributes := {}
  /-- An element that is not enabled is not written as live markup. -/
  enabled : Bool := true
  ending : Ending := .missing
  /-- Written as `<name … />`. -/
  selfClosed : Bool := false
  deriving DecidableEq, Repr

namespace Element

/-- Whether the element is the opener of a conditional comment. -/
def isConditional (e : Element) : Bool :=
  e.condition.isSome

/-- Whether the element has the given name, up to letter case. -/
def isNamed (e : Element) (name : String) : Bool :=
  AsciiCase.same e.name name

/-- The element under another name; conditional comments cannot be renamed. -/
def rename? (e : Element) (name : String) : Option Element :=
  if e.isConditional then none else some { e with name := name }

/-- The element under another name, if it can be renamed. -/
def rename (e : Element) (name : String) : Element :=
  (e.rename? name).getD e

/-- The element with changed attributes. -/
def mapAttributes (f : Attributes → Attributes) (e : Element) : Element :=
  { e with attributes := f e.attributes }

/-- The element, enabled or not. -/
def setEnabled (e : Element) (enabled : Bool) : Element :=
  { e with enabled := enabled }

/-- Whether no end tag was seen for the element and none is due. -/
def isNeverClosed (e : Element) : Bool :=
  !(e.ending == .closed || e.ending == .crossClosed || e.selfClosed)

end Element

/-! ## Content -/

/-- A closing construct that closes nothing. -/
inductive StrayClosing where
  /-- An end tag, with its name as written. -/
  | endTag (name : String)
  /-- The closer of a conditional comment. -/
  | conditional
  deriving DecidableEq, Repr

/-- What a node of a markup tree holds. -/
inductive Content where
  /-- Nothing: the root of a tree. -/
  | fragment
  /-- A text as written. -/
  | text (raw : String)
  /-- A closing construct as written, kept because it closes nothing. -/
  | stray (raw : String) (closing : StrayClosing)
  /-- A comment, without its delimiters. -/
  | comment (body : String)
  | element (e : Element)
  deriving DecidableEq, Repr

/-- The element that a node holds, if it holds one. -/
def Content.element? : Content → Option Element
  | .element e => some e
  | _ => none

end MarkupFilter
