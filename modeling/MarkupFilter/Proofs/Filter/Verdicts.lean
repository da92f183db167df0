import MarkupFilter.Proofs.Filter.Forcing
import MarkupFilter.Proofs.Filter.Tolerance
import MarkupFilter.Proofs.Filter.Walking

/-!
# What is left of a judged element

Without listeners, an element that is judged has the attributes that it had, each enabled or not, and
perhaps some more that the object guard gives it.

## Main definitions

* `Policy.ListenerFree` — no rule has listeners.
* `Filter.Guarded` — an element has no attributes but its own and those given by the guard.

## Main results

* `Filter.passed_decide` — what is left of an allowed element is what the rules allow.
* `Filter.guarded_protect` — what the object guard adds.
* `Filter.passed_judge` — both together.
-/

set_option autoImplicit false

namespace MarkupFilter

open Reader

/-! ## Policies without listeners -/

/-- No rule has listeners. -/
def Policy.ListenerFree (p : Policy) : Prop :=
  (∀ name rule, p.elementRule? name = some rule → rule.listeners = []) ∧
    ∀ name rule, p.attributeRule? name = some rule → rule.listeners = []

theorem Policy.ListenerFree.hasLocalListeners {p : Policy} (h : p.ListenerFree) :
    p.HasLocalListeners := by
  intro name rule hrule l hl
  rw [h.1 name rule hrule] at hl
  cases hl

/-! ## Decisions on elements -/

/-- The attribute is shaped whether it is enabled or not. -/
theorem Attribute.Shaped.setEnabled {a : Attribute} (ha : a.Shaped) (enabled : Bool) :
    (a.setEnabled enabled).Shaped :=
  ⟨ha.name_ne, ha.name, ha.value⟩

namespace Filter

variable {f : Filter}

/-- Without listeners, a rule only enables or disables an attribute; and it enables it on an allowed
element only if the rules allow it. -/
theorem decideListed_eq
    (hf : ∀ name rule, f.policy.attributeRule? name = some rule → rule.listeners = [])
    (rule? : Option ElementRule) (d : Decision) (owner : String) (a : Attribute) :
    ∃ b, f.decideListed rule? d owner a = a.setEnabled b ∧
      (b = true → d = .allowed → ∀ rule, rule? = some rule →
        f.AllowsAttribute rule owner a.name) := by
  unfold decideListed
  split
  · next hlisted =>
    cases hrule : f.policy.attributeRule? a.name with
    | none => exact ⟨false, rfl, fun h => nomatch h⟩
    | some r =>
      refine ⟨r.accepts owner a.value, ?_, fun haccepts hd rule hsome => ?_⟩
      · simp only [decideAttribute, hf _ r hrule]
        rfl
      · subst hd hsome
        refine ⟨by simpa using hlisted, r, hrule, ?_⟩
        by_cases hdisabled : r.disabled = true
        · by_cases hexception : r.isException owner = true
          · exact .inr hexception
          · simp [AttributeRule.accepts, hdisabled, hexception] at haccepts
        · exact .inl (by simpa using hdisabled)
  · exact ⟨false, rfl, fun h => nomatch h⟩

/-- Without listeners, a rule decides on an element by its flags. -/
theorem decideElement_flags {rule? : Option ElementRule}
    (hl : ∀ rule, rule? = some rule → rule.listeners = []) (e : Element) :
    decideElement rule? e = (decideEndTag rule?, e.setEnabled (decideEndTag rule? == .allowed)) := by
  cases rule? with
  | none => rfl
  | some rule =>
    have hsame : ElementListener.applyAll rule.listeners e = e := by
      rw [hl rule rfl]
      rfl
    simp only [decideElement, hsame, ite_self]

/-- Without listeners, a rule leaves an element as it is; it allows it only by its flags. -/
theorem decideElement_eq {rule? : Option ElementRule}
    (hl : ∀ rule, rule? = some rule → rule.listeners = []) (e : Element) :
    ∃ b, (decideElement rule? e).2 = e.setEnabled b ∧
      ((decideElement rule? e).1 = .allowed → ∃ rule, rule? = some rule ∧
        rule.disabled = false ∧ rule.removesTag = false) := by
  rw [decideElement_flags hl]
  refine ⟨decideEndTag rule? == .allowed, rfl, fun hallowed => ?_⟩
  cases rule? with
  | none => cases hallowed
  | some rule =>
    refine ⟨rule, rfl, ?_⟩
    simp only [decideEndTag] at hallowed
    split at hallowed
    · cases hallowed
    · next hremoves =>
      split at hallowed
      · cases hallowed
      · next hdisabled => exact ⟨by simpa using hdisabled, by simpa using hremoves⟩

/-- The decision on an element that is no conditional comment, without listeners. -/
theorem decide_eq (hf : f.policy.ListenerFree) {e : Element} (hc : e.condition = none)
    (parent? : Option String) (neverClosed : Bool) :
    ∃ d b, f.decide e parent? neverClosed =
        (d, if d = .removed then e.setEnabled b
          else (e.setEnabled b).mapAttributes
            (·.map (f.decideListed (f.policy.elementRule? e.name) d e.name))) ∧
      (d = .allowed → ∃ rule, f.policy.elementRule? e.name = some rule ∧ rule.disabled = false ∧
        rule.removesTag = false) := by
  have hruleFor : f.policy.ruleFor? e = f.policy.elementRule? e.name := by
    rw [Policy.ruleFor?, Element.isConditional, hc]
    rfl
  obtain ⟨b, hdecided, hallows⟩ :=
    decideElement_eq (fun rule hrule => hf.1 e.name rule hrule) e
  have hconditional : (e.setEnabled b).isConditional = false := by
    rw [Element.isConditional, Element.setEnabled, hc]
    rfl
  let d := f.placeDecision (f.policy.elementRule? e.name)
    (decideElement (f.policy.elementRule? e.name) e).1 (e.setEnabled b) parent? neverClosed
  refine ⟨d, d == .allowed, ?_, fun hd => hallows ?_⟩
  · simp only [decide, hruleFor, hdecided, hconditional]
    split
    · contradiction
    · split <;> simp_all [d, Element.setEnabled]
  · by_cases hallowed : (decideElement (f.policy.elementRule? e.name) e).1 = .allowed
    · exact hallowed
    · have : d = (decideElement (f.policy.elementRule? e.name) e).1 := if_neg hallowed
      rw [← this]
      exact hd

/-- The element after the decision on it can be written if it could before, and what is left of an
allowed one is what the rules allow. -/
theorem passed_decide (hf : f.policy.ListenerFree) {e : Element} (hc : e.condition = none)
    (he : e.Shaped) (parent? : Option String) (neverClosed : Bool) :
    let d := f.decide e parent? neverClosed
    d.2.Shaped ∧ (d.1 = .allowed → Passed f d.2) := by
  dsimp only
  obtain ⟨d, b, hdecide, hallows⟩ := decide_eq hf hc parent? neverClosed
  rw [hdecide]
  by_cases hremoved : d = .removed
  · rw [if_pos hremoved]
    exact ⟨⟨he.name, he.attributes, he.keys⟩, fun h => nomatch hremoved.symm.trans h⟩
  · rw [if_neg hremoved]
    have hlisted := fun a => decideListed_eq hf.2 (f.policy.elementRule? e.name) d e.name a
    have hkeys : ((e.setEnabled b).mapAttributes
        (·.map (f.decideListed (f.policy.elementRule? e.name) d e.name))).attributes.keys =
          e.attributes.keys := by
      simp only [Element.mapAttributes, Attributes.map, Attributes.keys, List.map_map]
      refine List.map_congr_left fun a _ => ?_
      obtain ⟨b, heq, -⟩ := hlisted a
      rw [Function.comp_apply, heq, Attribute.key_setEnabled]
    have hshaped : ((e.setEnabled b).mapAttributes
        (·.map (f.decideListed (f.policy.elementRule? e.name) d e.name))).Shaped := by
      refine ⟨he.name, fun a ha => ?_, hkeys ▸ he.keys⟩
      obtain ⟨a', ha', rfl⟩ := List.mem_map.1 ha
      obtain ⟨b, heq, -⟩ := hlisted a'
      rw [heq]
      exact (he.attributes a' ha').setEnabled b
    refine ⟨hshaped, fun hd => ⟨hshaped, ?_⟩⟩
    obtain ⟨rule, hrule, hdisabled, hremoves⟩ := hallows hd
    refine ⟨rule, hrule, hdisabled, hremoves, fun a ha => .inl ?_⟩
    obtain ⟨hmem, henabled⟩ := List.mem_filter.1 ha
    obtain ⟨a', -, rfl⟩ := List.mem_map.1 hmem
    obtain ⟨b, heq, hallowed⟩ := hlisted a'
    rw [heq] at henabled ⊢
    exact hallowed henabled hd rule hrule

/-! ## Protected elements -/

end Filter

/-- A value without quotes can be forced on an attribute. -/
theorem Attribute.Shaped.setValue {a : Attribute} (ha : a.Shaped) {value : String}
    (hvalue : '"' ∉ value.toList ∧ '\'' ∉ value.toList) : (a.setValue value).Shaped := by
  refine ⟨ha.name_ne, ha.name, ?_⟩
  rcases ha.quote_cases with hquote | hquote | hquote <;> rw [Attribute.setValue, hquote]
  · exact ⟨.inl rfl, hvalue.1⟩
  · exact ⟨.inl rfl, hvalue.1⟩
  · exact ⟨.inr rfl, hvalue.2⟩

namespace Filter

variable {f : Filter}

/-- The element `x` has the attributes of `e`, and others that the object guard may give to `e`. -/
structure Guarded (f : Filter) (e x : Element) : Prop extends x.Shaped where
  attributes_of : ∀ a ∈ x.attributes.toList, a ∈ e.attributes.toList ∨
    f.GuardsAttribute e.name a.name

theorem Guarded.force {e x : Element} (h : Guarded f e x) {name value : String}
    (hne : name.toList ≠ []) (hname : ∀ c ∈ name.toList, isAttributeNameChar c = true)
    (hvalue : '"' ∉ value.toList ∧ '\'' ∉ value.toList)
    (hguards : ∀ name', AsciiCase.same name' name = true → f.GuardsAttribute e.name name') :
    Guarded f e (x.mapAttributes (ObjectGuard.force name value)) := by
  refine ⟨⟨h.name, fun a ha => ?_, ?_⟩, fun a ha => ?_⟩
  · rcases Attributes.mem_force ha with hmem | ⟨-, b, rfl, hmem | rfl | ⟨c, hc, rfl⟩⟩
    · exact h.attributes a hmem
    · exact (h.attributes b hmem).setEnabled true
    · exact (Attribute.Shaped.ofValue hne hname hvalue.1).setEnabled true
    · exact ((h.attributes c hc).setValue hvalue).setEnabled true
  · rw [Element.mapAttributes, Attributes.keys_force]
    exact Attributes.nodup_set h.keys
  · rcases Attributes.mem_force ha with hmem | ⟨hkey, -⟩
    · exact h.attributes_of a hmem
    · exact .inr (hguards _ ((AsciiCase.same_iff ..).2 (a.key_eq ▸ hkey)))

theorem guarded_param (urls : UrlAllowList) (g : ObjectGuard) {e : Element} (he : e.Shaped)
    (hprotect : f.settings.protectObjects = true) (hparam : e.isNamed "param" = true) :
    Guarded f e (g.param urls e).2 := by
  have hself : Guarded f e e := ⟨he, fun a ha => .inl ha⟩
  unfold ObjectGuard.param
  split
  · exact hself
  · dsimp only
    split
    · exact hself
    · next s _ =>
      refine hself.force (by decide) (by decide) (s.value_noQuotes _) fun name' hname' => ?_
      exact ⟨hprotect, .inl ⟨hparam, hname'⟩⟩

/-- The settings of an `<embed>` are forced one after the other; the induction is on them. -/
theorem guarded_embed (urls : UrlAllowList) {e : Element} (he : e.Shaped)
    (hprotect : f.settings.protectObjects = true) (hembed : e.isNamed "embed" = true) :
    Guarded f e (ObjectGuard.embed urls e) := by
  have hall : ∀ (settings : List SafetySetting) (x : Element) (n : Networking),
      Guarded f e x → Guarded f e (x.mapAttributes fun as =>
        settings.foldl (fun as s => ObjectGuard.force s.name (s.value n) as) as) := by
    intro settings
    induction settings with
    | nil => exact fun x n hx => hx
    | cons s settings ih =>
      intro x n hx
      refine ih _ n (hx.force s.isAttributeName.1 s.isAttributeName.2 (s.value_noQuotes n) ?_)
      exact fun name' hname' => ⟨hprotect, .inr ⟨hembed, s, hname'⟩⟩
  exact hall _ e _ ⟨he, fun a ha => .inl ha⟩

/-- The object guard adds nothing to an element but attributes that it may give; and it opens a
frame only for an allowed object. -/
theorem guarded_protect (f : Filter) (g : ObjectGuard) {e : Element} (he : e.Shaped)
    (d : Decision) :
    Guarded f e (f.protect g e d).2.2 ∧ ((f.protect g e d).1.isSome = true →
      d = .allowed ∧ e.isNamed "object" = true ∧ f.settings.protectObjects = true) := by
  have hself : Guarded f e e := ⟨he, fun a ha => .inl ha⟩
  unfold protect
  by_cases hprotected : (f.settings.protectObjects && d == .allowed) = true
  · obtain ⟨hprotect, hd⟩ : f.settings.protectObjects = true ∧ d = .allowed := by
      simpa using hprotected
    rw [if_pos hprotected]
    by_cases hparam : e.isNamed "param" = true
    · rw [if_pos hparam]
      exact ⟨guarded_param _ g he hprotect hparam, fun h => nomatch h⟩
    · rw [if_neg hparam]
      by_cases hembed : e.isNamed "embed" = true
      · rw [if_pos hembed]
        exact ⟨guarded_embed _ he hprotect hembed, fun h => nomatch h⟩
      · rw [if_neg hembed]
        by_cases hobject : (e.isNamed "object" && !e.selfClosed) = true
        · rw [if_pos hobject]
          exact ⟨hself, fun _ => ⟨hd, (Bool.and_eq_true_iff.1 hobject).1, hprotect⟩⟩
        · rw [if_neg hobject]
          exact ⟨hself, fun h => nomatch h⟩
  · rw [if_neg hprotected]
    exact ⟨hself, fun h => nomatch h⟩

/-- **What is judged can be written**: the element can be, it is within the rules if it is allowed,
and it is remembered with a frame only if it is an allowed object. -/
theorem passed_judge (hf : f.policy.ListenerFree) (g : ObjectGuard) {e : Element}
    (hc : e.condition = none) (he : e.Shaped) (parent? : Option String) (neverClosed : Bool) :
    let v := f.judge g e parent? neverClosed
    v.element.condition = none ∧ v.element.Shaped ∧ (v.decision = .allowed → Passed f v.element) ∧
      Remembered f v.opened := by
  intro v
  obtain ⟨hshaped, hpassed⟩ := passed_decide hf hc he parent? neverClosed
  obtain ⟨hguarded, hframe⟩ := guarded_protect f g hshaped (f.decide e parent? neverClosed).1
  have htag := sameTag_protect f g (f.decide e parent? neverClosed).2
    (f.decide e parent? neverClosed).1
  have hcondition : v.element.condition = none :=
    (sameTag_judge hf.hasLocalListeners g e parent? neverClosed).condition.trans hc
  refine ⟨hcondition, hguarded.toShaped, fun hallowed => ⟨hguarded.toShaped, ?_⟩,
    ⟨hguarded.name, fun hsome => ?_⟩⟩
  · obtain ⟨rule, hrule, hdisabled, hremoves, hattributes⟩ := (hpassed hallowed).tag
    refine ⟨rule, htag.name.symm ▸ hrule, hdisabled, hremoves, fun a ha => ?_⟩
    obtain ⟨hmem, henabled⟩ := List.mem_filter.1 ha
    have hname : v.element.name = (f.decide e parent? neverClosed).2.name := htag.name
    dsimp only
    rw [hname]
    rcases hguarded.attributes_of a hmem with hold | hgiven
    · exact hattributes a (List.mem_filter.2 ⟨hold, henabled⟩)
    · exact .inr hgiven
  · obtain ⟨hd, hobject, hprotect⟩ := hframe hsome
    refine ⟨hd, ?_, hprotect⟩
    have hname : v.opened.name = (f.decide e parent? neverClosed).2.name := htag.name
    rw [hname]
    exact hobject

end Filter

end MarkupFilter
