import MarkupFilter.Pattern.Basic
import MarkupFilter.Policy.Listener

/-!
# Rules of a policy

## Main definitions

* `PolicyError` — what can be wrong with a policy, and how it is reported.
* `ElementRule` — how elements of a name may be written.
* `AttributeRule` — how attributes of a name may be written.
* `ElementRule.merge`, `AttributeRule.merge` — a rule extended by another of the same name.
-/

set_option autoImplicit false

namespace MarkupFilter

/-- What can be wrong with a policy. -/
inductive PolicyError where
  /-- A text that is no pattern. -/
  | malformedPattern (source : String)
  /-- A name that no listener is registered for. -/
  | unknownListener (name : String)
  deriving DecidableEq, Repr

/-- How an error is reported. -/
def PolicyError.message : PolicyError → String
  | .malformedPattern source => "Invalid attribute pattern: " ++ source
  | .unknownListener name => "Unknown listener: " ++ name

/-! ## Elements -/

/-- How elements of a name may be written. Names in the lists are in small letters. -/
structure ElementRule where
  name : String
  /-- Elements stay in the output without effect. -/
  disabled : Bool := false
  /-- The tags are left out of the output; this goes before `disabled`. -/
  removesTag : Bool := false
  /-- An element without an end tag is disabled. -/
  requiresEndTag : Bool := false
  attributes : List String := []
  /-- The elements that may stand directly inside; any, if there are none in the list. -/
  children : List String := []
  listeners : List ElementListener := []

namespace ElementRule

/-- The rule with more attributes allowed. -/
def allowAttributes (rule : ElementRule) (names : List String) : ElementRule :=
  { rule with attributes := rule.attributes ++ names.map AsciiCase.lower }

/-- The rule with more elements allowed inside. -/
def allowChildren (rule : ElementRule) (names : List String) : ElementRule :=
  { rule with children := rule.children ++ names.map AsciiCase.lower }

/-- The rule with more listeners, after those it has. -/
def addListeners (rule : ElementRule) (listeners : List ElementListener) : ElementRule :=
  { rule with listeners := rule.listeners ++ listeners }

/-- Whether elements may have the attribute `name`. -/
def allowsAttribute (rule : ElementRule) (name : String) : Bool :=
  rule.attributes.contains (AsciiCase.lower name)

/-- Whether the element `name` may stand directly inside. -/
def allowsChild (rule : ElementRule) (name : String) : Bool :=
  rule.children.isEmpty || rule.children.contains (AsciiCase.lower name)

/-- The rule extended by another: what either of them lists. The flags stay those of the first. -/
def merge (rule other : ElementRule) : ElementRule :=
  { rule with
    attributes := rule.attributes ++ other.attributes
    children := rule.children ++ other.children
    listeners := rule.listeners ++ other.listeners }

end ElementRule

/-! ## Attributes -/

/-- How attributes of a name may be written. -/
structure AttributeRule where
  name : String
  disabled : Bool := false
  /-- Base64 payloads are decoded before patterns are tried. -/
  decodesBase64 : Bool := false
  /-- The elements, in small letters, on which `disabled` does not count. -/
  exceptions : List String := []
  /-- If there are any, a value must match one of them in full. -/
  allowed : List Pattern := []
  /-- Otherwise no part of a value may match one of these. -/
  denied : List Pattern := []
  listeners : List AttributeListener := []

namespace AttributeRule

/-- The rule with one more allowed pattern. -/
def allow (rule : AttributeRule) (source : String) : Except PolicyError AttributeRule :=
  match Pattern.compileWhole? source with
  | some p => .ok { rule with allowed := rule.allowed ++ [p] }
  | none => .error (.malformedPattern source)

/-- The rule with one more denied pattern. -/
def deny (rule : AttributeRule) (source : String) : Except PolicyError AttributeRule :=
  match Pattern.compile? source with
  | some p => .ok { rule with denied := rule.denied ++ [p] }
  | none => .error (.malformedPattern source)

/-- The rule with more exceptions. -/
def addExceptions (rule : AttributeRule) (names : List String) : AttributeRule :=
  { rule with exceptions := rule.exceptions ++ names.map AsciiCase.lower }

/-- The rule with more listeners, after those it has. -/
def addListeners (rule : AttributeRule) (listeners : List AttributeListener) : AttributeRule :=
  { rule with listeners := rule.listeners ++ listeners }

/-- Whether the rule's `disabled` does not count on the element `owner`. -/
def isException (rule : AttributeRule) (owner : String) : Bool :=
  rule.exceptions.contains (AsciiCase.lower owner)

/-- The rule extended by another: what either of them lists. The flags stay those of the first. -/
def merge (rule other : AttributeRule) : AttributeRule :=
  { rule with
    exceptions := rule.exceptions ++ other.exceptions
    allowed := rule.allowed ++ other.allowed
    denied := rule.denied ++ other.denied
    listeners := rule.listeners ++ other.listeners }

end AttributeRule

end MarkupFilter
