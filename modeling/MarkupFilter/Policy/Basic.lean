import MarkupFilter.Policy.Rule

/-!
# Policies

A policy is drafted as a list of declared rules and then built: names of listeners are looked up,
and rules for one name are resolved, where a later rule takes the place of an earlier one or
extends it.

## Main definitions

* `RuleTable` — rules by name.
* `Policy` — the rules for elements and attributes.
* `PolicyDraft` — declared rules in order.
* `PolicyDraft.build` — the policy of a draft.
-/

set_option autoImplicit false

namespace MarkupFilter

/-! ## Tables of rules -/

/-- Rules by name, in small letters. -/
structure RuleTable (ρ : Type) where
  entries : List (String × ρ) := []

namespace RuleTable

variable {ρ : Type}

/-- The rule of a name, up to letter case. -/
def find? (t : RuleTable ρ) (name : String) : Option ρ :=
  t.entries.lookup (AsciiCase.lower name)

/-- The table in which `rule` is the rule of `name`. -/
def put (t : RuleTable ρ) (name : String) (rule : ρ) : RuleTable ρ :=
  let key := AsciiCase.lower name
  ⟨(key, rule) :: t.entries.filter fun e => e.1 != key⟩

/-- The table with one more rule declared for `name`. It replaces an earlier one if `overrides`
says so, and is merged into it otherwise. -/
def add (t : RuleTable ρ) (merge : ρ → ρ → ρ) (name : String) (overrides : Bool) (rule : ρ) :
    RuleTable ρ :=
  match t.find? name with
  | some existing => t.put name (if overrides then rule else merge existing rule)
  | none => t.put name rule

end RuleTable

/-! ## Policies -/

/-- The rules for elements and for attributes. What has no rule is not allowed. -/
structure Policy where
  elements : RuleTable ElementRule := {}
  attributes : RuleTable AttributeRule := {}

namespace Policy

/-- The rule for elements of a name, up to letter case. -/
def elementRule? (p : Policy) (name : String) : Option ElementRule :=
  p.elements.find? name

/-- The rule for attributes of a name, up to letter case. -/
def attributeRule? (p : Policy) (name : String) : Option AttributeRule :=
  p.attributes.find? name

/-- The name of the rule for conditional comments. -/
def conditionalName : String := "IEHackExtension"

/-- The rule for an element; conditional comments share one. -/
def ruleFor? (p : Policy) (e : Element) : Option ElementRule :=
  p.elementRule? (if e.isConditional then conditionalName else e.name)

end Policy

/-! ## Drafts -/

/-- A rule as declared: with the names of listeners to add to it, and whether it takes the place
of an earlier rule of its name. -/
structure Declaration (ρ : Type) where
  rule : ρ
  overrides : Bool := true
  listenerNames : List String := []

/-- Declared rules in order. -/
structure PolicyDraft where
  elements : List (Declaration ElementRule) := []
  attributes : List (Declaration AttributeRule) := []

/-- The listeners of the given names, or the first name that is not known. -/
def resolveListeners {L : Type} (find : String → Option L) :
    List String → Except PolicyError (List L)
  | [] => .ok []
  | name :: names =>
    match find name with
    | none => .error (.unknownListener name)
    | some l => (resolveListeners find names).map (l :: ·)

namespace PolicyDraft

/-- The table after one more declared element rule. -/
def addElement (registry : ListenerRegistry) (t : RuleTable ElementRule)
    (d : Declaration ElementRule) : Except PolicyError (RuleTable ElementRule) :=
  (resolveListeners registry.element? d.listenerNames).map fun listeners =>
    t.add ElementRule.merge d.rule.name d.overrides (d.rule.addListeners listeners)

/-- The table after one more declared attribute rule. -/
def addAttribute (registry : ListenerRegistry) (t : RuleTable AttributeRule)
    (d : Declaration AttributeRule) : Except PolicyError (RuleTable AttributeRule) :=
  (resolveListeners registry.attribute? d.listenerNames).map fun listeners =>
    t.add AttributeRule.merge d.rule.name d.overrides (d.rule.addListeners listeners)

/-- The policy of a draft. The first listener name that the registry does not know is reported,
those of elements before those of attributes. -/
def build (d : PolicyDraft) (registry : ListenerRegistry := .builtin) :
    Except PolicyError Policy := do
  let elements ← d.elements.foldlM (addElement registry) {}
  let attributes ← d.attributes.foldlM (addAttribute registry) {}
  return ⟨elements, attributes⟩

end PolicyDraft

end MarkupFilter
