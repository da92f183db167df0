import MarkupFilter.Policy.Basic
import MarkupFilter.Text.CharacterReference
import MarkupFilter.Text.DataUrl

/-!
# Decisions on single elements and attributes

## Main definitions

* `Decision` — what becomes of a tag.
* `decideElement`, `decideEndTag`, `decideAttribute` — what a rule says.
* `AttributeRule.acceptsValue` — whether the patterns of a rule accept a value.
-/

set_option autoImplicit false

namespace MarkupFilter

/-- What becomes of a tag. -/
inductive Decision where
  /-- It is written as live markup. -/
  | allowed
  /-- It is written without effect. -/
  | disabled
  /-- It is left out; what is inside the element is still written. -/
  | removed
  deriving DecidableEq, Repr

/-! ## Elements -/

/-- What a rule says about tags by its flags. Without a rule, tags are disabled. -/
def decideEndTag : Option ElementRule → Decision
  | none => .disabled
  | some rule =>
    if rule.removesTag then .removed else if rule.disabled then .disabled else .allowed

/-- What a rule says about an element, and the element after the rule's listeners have seen it.
They do not see elements that are removed. Only an allowed element is enabled. -/
def decideElement (rule? : Option ElementRule) (e : Element) : Decision × Element :=
  match rule? with
  | none => (.disabled, e.setEnabled false)
  | some rule =>
    let decision := decideEndTag (some rule)
    let e := if decision = .removed then e else ElementListener.applyAll rule.listeners e
    (decision, e.setEnabled (decision == .allowed))

/-! ## Attributes -/

/-- The text of a value as a browser will take it: references are read, and the payload of a data
address is decoded if `decodesBase64` says so. -/
def effectiveValue (decodesBase64 : Bool) (value : String) : String :=
  let text := CharacterReference.unescape value
  if decodesBase64 then (DataUrl.reveal? text).getD text else text

/-- Whether the patterns of a rule accept a value. Where there are allowed patterns, one of them
must match; otherwise no denied pattern may. -/
def AttributeRule.acceptsValue (rule : AttributeRule) (value : String) : Bool :=
  let text := effectiveValue rule.decodesBase64 value
  if rule.allowed.isEmpty then !(rule.denied.any fun p => p.occursIn text)
  else rule.allowed.any fun p => p.occursIn text

/-- Whether a rule allows an attribute with the given value, if any, on the element `owner`, before
its listeners. -/
def AttributeRule.accepts (rule : AttributeRule) (owner : String) (value? : Option String) : Bool :=
  if rule.disabled && !rule.isException owner then false
  else rule.acceptsValue (value?.getD "")

/-- The attribute after its rule has enabled or disabled it and the rule's listeners have seen it.
Without a rule it is disabled. -/
def decideAttribute (rule? : Option AttributeRule) (a : Attribute) (owner : String) : Attribute :=
  match rule? with
  | none => a.setEnabled false
  | some rule =>
    AttributeListener.applyAll rule.listeners (a.setEnabled (rule.accepts owner a.value))

end MarkupFilter
