import MarkupFilter.Filter.Basic
import MarkupFilter.Plugin.ObjectGuard
import MarkupFilter.Policy.Decision

/-!
# Deciding on elements in their place

## Main definitions

* `Filter.decide` — the decision on an element and its attributes, given where it stands.
* `Filter.protect` — the safety settings of plugin content.
* `Filter.judge` — both, one after the other.
-/

set_option autoImplicit false

namespace MarkupFilter.Filter

/-- The decision on an element of which the rule's own decision is known, given the name of the
element it stands in. What is allowed by its rule is still disabled when its end tag is missing
against the rule, or when the rule of the element around it does not allow it inside. -/
def placeDecision (f : Filter) (rule? : Option ElementRule) (decision : Decision) (e : Element)
    (parent? : Option String) (neverClosed : Bool) : Decision :=
  if decision = .allowed then
    if neverClosed && rule?.any (·.requiresEndTag) then .disabled
    else match parent?.bind f.policy.elementRule? with
      | some parent => if parent.allowsChild e.name then .allowed else .disabled
      | none => .allowed
  else decision

/-- The attribute after it is decided on for an element. On an allowed element it must be listed by
the element's rule; in any case its own rule decides. -/
def decideListed (f : Filter) (rule? : Option ElementRule) (decision : Decision) (owner : String)
    (a : Attribute) : Attribute :=
  if decision != .allowed || rule?.any (·.allowsAttribute a.name) then
    decideAttribute (f.policy.attributeRule? a.name) a owner
  else a.setEnabled false

/-- The decision on an element in its place, and the element with what was decided on it and its
attributes. The attributes of removed elements and of conditional comments are left as they are. -/
def decide (f : Filter) (e : Element) (parent? : Option String) (neverClosed : Bool) :
    Decision × Element :=
  let rule? := f.policy.ruleFor? e
  let (decision, e) := decideElement rule? e
  if e.isConditional then (decision, e)
  else
    let decision := f.placeDecision rule? decision e parent? neverClosed
    let e := e.setEnabled (decision == .allowed)
    if decision = .removed then (decision, e)
    else (decision, e.mapAttributes (·.map (f.decideListed rule? decision e.name)))

/-- The guard and the element after the element's safety settings are seen to, and the key of its
frame if it opens an object. Only allowed elements are protected. -/
def protect (f : Filter) (g : ObjectGuard) (e : Element) (decision : Decision) :
    Option Nat × ObjectGuard × Element :=
  if f.settings.protectObjects && decision == .allowed then
    if e.isNamed "param" then
      let (g, e) := g.param f.settings.urlAllowList e
      (none, g, e)
    else if e.isNamed "embed" then (none, g, ObjectGuard.embed f.settings.urlAllowList e)
    else if e.isNamed "object" && !e.selfClosed then
      let (key, g) := g.open
      (some key, g, e)
    else (none, g, e)
  else (none, g, e)

/-- An element that is decided on and protected. -/
structure Verdict where
  decision : Decision
  element : Element
  /-- The key of the frame of an object. -/
  objectKey? : Option Nat
  guard : ObjectGuard

/-- The element in its place, decided on and protected. -/
def judge (f : Filter) (g : ObjectGuard) (e : Element) (parent? : Option String)
    (neverClosed : Bool) : Verdict :=
  let (decision, e) := f.decide e parent? neverClosed
  let (key?, g, e) := f.protect g e decision
  ⟨decision, e, key?, g⟩

end MarkupFilter.Filter
