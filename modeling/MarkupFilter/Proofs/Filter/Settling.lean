import MarkupFilter.Proofs.Filter.Frames
import MarkupFilter.Proofs.Filter.Verdicts
import MarkupFilter.Proofs.Policy.BaselineTables

/-!
# Elements that are settled

What a filter adds to an element that it allows, it does not add again: the attribute that protects
links, the values that the object guard forces, and the references for angle brackets are there when
the written start tag is judged once more.

## Main definitions

* `Policy.ProtectsLinksOnly` — the policy has no listeners but the one on links.
* `Filter.Plain` — the filter has no listeners but the one on links, and does not look at places.
* `Filter.forces` — the values that the object guard forces on an element.
* `Filter.forcedValues` — the same values, where no address may use the network.
* `Filter.Settled` — the verdict on an element is that it is allowed as it is.

## Main results

* `Filter.forceAll_written` — values are forced only once.
* `Filter.settled_asWritten` — a written element is settled.
-/

set_option autoImplicit false

namespace MarkupFilter

open Reader

/-! ## The listener on links -/

namespace ElementListener

/-- The element of a link is protected, where the listeners see to that. -/
def Protects (listeners : List ElementListener) (e : Element) : Prop :=
  listeners = [] ∨ e.isNamed "a" = false ∨ e.attributes.contains "rel" = true ∧
    ∀ a ∈ e.attributes.toList, a.key = AsciiCase.lower "rel" → a.Holds "noopener noreferrer"

theorem onElement_linkRel (e : Element) : Protects [linkRel] (linkRel.onElement e) := by
  unfold linkRel
  dsimp only
  by_cases ha : e.isNamed "a" = true
  · rw [if_pos ha]
    refine .inr (.inr ⟨?_, fun a ha => Attributes.holds_set ha⟩)
    rw [Element.mapAttributes, Attributes.contains_iff, Attributes.keys_set]
    split
    · next h => exact (Attributes.contains_iff ..).1 h
    · exact List.mem_append_right _ (List.mem_singleton.2 rfl)
  · rw [if_neg ha]
    exact .inr (.inl (by simpa using ha))

theorem onElement_of_protects {e : Element} (h : Protects [linkRel] e) :
    linkRel.onElement e = e := by
  unfold linkRel
  dsimp only
  split
  · next ha =>
    rcases h with h | h | ⟨hcontains, hholds⟩
    · cases h
    · rw [h] at ha
      cases ha
    · rw [Element.mapAttributes, Attributes.set_eq_self hcontains hholds]
  · rfl

/-- The listener on links, called any number of times, protects links once. -/
theorem applyAll_of_protects {listeners : List ElementListener}
    (hl : ∀ l ∈ listeners, l = linkRel) {e : Element} (h : Protects listeners e) :
    applyAll listeners e = e := by
  have hone : listeners ≠ [] → linkRel.onElement e = e := fun hne =>
    onElement_of_protects (h.imp_left fun hnil => absurd hnil hne)
  clear h
  induction listeners with
  | nil => rfl
  | cons l listeners ih =>
    have hfirst := hone (List.cons_ne_nil _ _)
    show applyAll listeners (l.onElement e) = e
    rw [hl l (List.mem_cons_self ..), hfirst]
    exact ih (fun l' hl' => hl l' (List.mem_cons_of_mem _ hl')) fun _ => hfirst

theorem protects_applyAll {listeners : List ElementListener} (hl : ∀ l ∈ listeners, l = linkRel)
    (e : Element) : Protects listeners (applyAll listeners e) := by
  cases listeners with
  | nil => exact .inl rfl
  | cons l listeners =>
    obtain rfl := hl l (List.mem_cons_self ..)
    have hprotects : Protects listeners (linkRel.onElement e) := by
      rcases onElement_linkRel e with h | h
      · cases h
      · exact .inr h
    show Protects (linkRel :: listeners) (applyAll listeners (linkRel.onElement e))
    rw [applyAll_of_protects (fun l' hl' => hl l' (List.mem_cons_of_mem _ hl')) hprotects]
    exact (onElement_linkRel e).imp_left fun h => absurd h (List.cons_ne_nil _ _)

end ElementListener

/-! ## Decisions without places -/

/-- The policy has no listeners but the one on links. -/
structure Policy.ProtectsLinksOnly (p : Policy) : Prop where
  elements : ∀ name rule, p.elementRule? name = some rule → ∀ l ∈ rule.listeners, l = .linkRel
  attributes : ∀ name rule, p.attributeRule? name = some rule → rule.listeners = []

theorem Policy.ProtectsLinksOnly.hasLocalListeners {p : Policy} (h : p.ProtectsLinksOnly) :
    p.HasLocalListeners := by
  intro name rule hrule l hl
  rw [h.elements name rule hrule l hl]
  exact ElementListener.isLocal_linkRel

theorem Policy.baseline_protectsLinksOnly : Policy.baseline.ProtectsLinksOnly :=
  ⟨fun _ _ hrule => (baseline_plainRule hrule).listeners,
    fun _ _ hrule => baseline_attributeListeners hrule⟩

/-- The filter has no listeners but the one on links, does not look at places, and does not let
plugins use the network. -/
structure Filter.Plain (f : Filter) : Prop where
  listeners : ∀ name rule, f.policy.elementRule? name = some rule →
    ∀ l ∈ rule.listeners, l = .linkRel
  attributeListeners : ∀ name rule, f.policy.attributeRule? name = some rule → rule.listeners = []
  place : f.policy.IgnoresPlace
  network : f.DeniesNetwork

namespace Filter

variable {f : Filter}

theorem Plain.protectsLinksOnly (hf : f.Plain) : f.policy.ProtectsLinksOnly :=
  ⟨hf.listeners, hf.attributeListeners⟩

theorem Plain.hasLocalListeners (hf : f.Plain) : f.policy.HasLocalListeners :=
  hf.protectsLinksOnly.hasLocalListeners

/-- The baseline filter is plain. -/
theorem plain_baseline : Filter.baseline.Plain := by
  have hnetwork := baseline_deniesNetwork
  have hlinks := Policy.baseline_protectsLinksOnly
  have hplace := Policy.baseline_ignoresPlace
  rw [← policy_baseline] at hlinks hplace
  exact ⟨hlinks.elements, hlinks.attributes, hplace, hnetwork⟩

/-- The element after its rule, which allows it, has decided on its attributes. -/
def listed (f : Filter) (rule : ElementRule) (e : Element) : Element :=
  { e with
    enabled := true
    attributes := (ElementListener.applyAll rule.listeners e).attributes.map
      (f.decideListed (some rule) .allowed e.name) }

/-- Without a place, the decision of the rule stands. -/
theorem placeDecision_nowhere (rule? : Option ElementRule) (d : Decision) (e : Element) :
    f.placeDecision rule? d e none false = d := by
  unfold placeDecision
  split
  · next h => exact h.symm
  · rfl

theorem decide_of_rule (hf : f.policy.HasLocalListeners) (hp : f.policy.IgnoresPlace)
    {e : Element} (hc : e.condition = none) {rule : ElementRule}
    (hrule : f.policy.elementRule? e.name = some rule)
    (hallowed : decideEndTag (some rule) = .allowed) (parent? : Option String)
    (neverClosed : Bool) : f.decide e parent? neverClosed = (.allowed, f.listed rule e) := by
  have hruleFor : f.policy.ruleFor? e = some rule := by
    rw [Policy.ruleFor?, Element.isConditional, hc]
    exact hrule
  obtain ⟨h, happly⟩ := ElementListener.applyAll_eq (hf _ _ hrule)
  have hdecided : decideElement (some rule) e =
      (.allowed, (e.mapAttributes (h e.name)).setEnabled true) := by
    simp only [decideElement, hallowed, happly]
    rfl
  have hconditional : ((e.mapAttributes (h e.name)).setEnabled true).isConditional = false := by
    rw [Element.isConditional, Element.setEnabled, Element.mapAttributes, hc]
    rfl
  rw [decide_place hp, listed, happly]
  simp only [decide, hruleFor, hdecided, hconditional, placeDecision_nowhere]
  rfl

theorem rule_of_decide (hf : f.Plain) {e : Element} (hc : e.condition = none)
    {parent? : Option String} {neverClosed : Bool}
    (h : (f.decide e parent? neverClosed).1 = .allowed) :
    ∃ rule, f.policy.elementRule? e.name = some rule ∧ decideEndTag (some rule) = .allowed := by
  have hruleFor : f.policy.ruleFor? e = f.policy.elementRule? e.name := by
    rw [Policy.ruleFor?, Element.isConditional, hc]
    rfl
  have hdecision : (decideElement (f.policy.elementRule? e.name) e).1 = .allowed := by
    rw [decide_place hf.place] at h
    simp only [decide, hruleFor, placeDecision_nowhere] at h
    split at h
    · exact h
    · split at h <;> exact h
  cases hrule : f.policy.elementRule? e.name with
  | none =>
    rw [hrule] at hdecision
    cases hdecision
  | some rule =>
    rw [hrule] at hdecision
    exact ⟨rule, rfl, hdecision⟩

/-! ## Protection -/

/-- What is not allowed is not protected. -/
theorem protect_of_not_allowed (g : ObjectGuard) (e : Element) {d : Decision} (hd : d ≠ .allowed) :
    f.protect g e d = (none, g, e) := by
  unfold protect
  rw [if_neg (by simp [hd])]

/-- The guard sees to allowed parameters. -/
theorem protect_param (hprotect : f.settings.protectObjects = true) (g : ObjectGuard) {e : Element}
    (hparam : e.isNamed "param" = true) :
    f.protect g e .allowed = (none, g.param f.settings.urlAllowList e) := by
  unfold protect
  rw [if_pos (by rw [hprotect]; rfl), if_pos hparam]

/-! ### Forced values -/

/-- The setting that a parameter names. -/
def settingOf? (as : Attributes) : Option SafetySetting :=
  (as.value? "name").bind SafetySetting.ofName?

/-- The value of a parameter is forced if it names a setting. -/
theorem param_eq (urls : UrlAllowList) (g : ObjectGuard) (e : Element) : (g.param urls e).2 =
    match settingOf? e.attributes with
    | some s => e.mapAttributes
        (ObjectGuard.force "value" (s.value (g.param urls e).1.networking))
    | none => e := by
  unfold ObjectGuard.param settingOf?
  cases e.attributes.value? "name" with
  | none => rfl
  | some name =>
    dsimp only [Option.bind_some]
    cases SafetySetting.ofName? name <;> rfl

/-- How far an embedded element with these attributes may use the network. -/
def embeddedNetworking (urls : UrlAllowList) (as : Attributes) : Networking :=
  match as.value? "src" with
  | some src => ObjectGuard.networkingOf urls src
  | none => .internal

/-- The values that the object guard forces on an element. -/
def forces (f : Filter) (g : ObjectGuard) (e : Element) (d : Decision) : List (String × String) :=
  if (f.settings.protectObjects && d == .allowed) = true then
    if e.isNamed "param" = true then
      match settingOf? e.attributes with
      | some s => [("value", s.value (g.param f.settings.urlAllowList e).1.networking)]
      | none => []
    else if e.isNamed "embed" = true then
      SafetySetting.all.map fun s =>
        (s.name, s.value (embeddedNetworking f.settings.urlAllowList e.attributes))
    else []
  else []

theorem nodup_forces (g : ObjectGuard) (e : Element) (d : Decision) :
    ((f.forces g e d).map fun v => AsciiCase.lower v.1).Nodup := by
  unfold forces
  split
  · split
    · split
      · exact List.pairwise_singleton _ _
      · exact List.nodup_nil
    · split
      · have hnames : (SafetySetting.all.map fun s => AsciiCase.lower s.name).Nodup := by decide
        rw [List.map_map]
        exact hnames
      · exact List.nodup_nil
  · exact List.nodup_nil

/-- The guard changes an element by forcing values on it. -/
theorem element_protect (g : ObjectGuard) (e : Element) (d : Decision) :
    (f.protect g e d).2.2 = e.mapAttributes (Attributes.forceAll (f.forces g e d)) := by
  unfold protect forces
  split
  · split
    · show (g.param f.settings.urlAllowList e).2 = _
      rw [param_eq]
      cases settingOf? e.attributes <;> rfl
    · split
      · rfl
      · split <;> rfl
  · rfl

/-! ### Protection without the network -/

/-- The values that the object guard forces on an allowed element, where no address may use the
network. -/
def forcedValues (f : Filter) (e : Element) : List (String × String) :=
  if f.settings.protectObjects = true then
    if e.isNamed "param" = true then
      match (e.attributes.value? "name").bind SafetySetting.ofName? with
      | some s => [("value", s.value .internal)]
      | none => []
    else if e.isNamed "embed" = true then
      SafetySetting.all.map fun s => (s.name, s.value .internal)
    else []
  else []

/-- Without the network, no value that is forced depends on an address. -/
theorem forces_eq_forcedValues (hnet : f.DeniesNetwork) {g : ObjectGuard} (hg : g.Internal)
    (e : Element) : f.forces g e .allowed = f.forcedValues e := by
  unfold forces forcedValues
  by_cases hprotect : f.settings.protectObjects = true
  · have hdenies : ∀ url, f.settings.urlAllowList.allows url = false := by
      rcases hnet with hoff | hnone
      · rw [hprotect] at hoff
        cases hoff
      · exact hnone
    have hparam : (g.param f.settings.urlAllowList e).1.networking = .internal :=
      (param_alike (.refl g) hg hdenies e).2.2.networking
    have hembed : embeddedNetworking f.settings.urlAllowList e.attributes = .internal := by
      unfold embeddedNetworking
      split
      · rw [ObjectGuard.networkingOf, hdenies]
        rfl
      · rfl
    rw [if_pos hprotect, if_pos (by rw [hprotect]; rfl), hparam, hembed]
    rfl
  · rw [if_neg hprotect, if_neg (by simpa using hprotect)]

theorem nodup_forcedValues (hnet : f.DeniesNetwork) (e : Element) :
    ((f.forcedValues e).map fun v => AsciiCase.lower v.1).Nodup := by
  rw [← forces_eq_forcedValues hnet ObjectGuard.internal_empty]
  exact nodup_forces ..

theorem protect_allowed (hnet : f.DeniesNetwork) {g : ObjectGuard} (hg : g.Internal)
    (e : Element) : (f.protect g e .allowed).2.2 =
      e.mapAttributes (Attributes.forceAll (f.forcedValues e)) := by
  rw [element_protect, forces_eq_forcedValues hnet hg]

/-! ## Written values -/

end Filter

/-- Within quotes that it fits, a value is written with its angle brackets escaped. -/
theorem renderValue_eq_escapeAngles {quote? : Option Char} {value : String}
    (h : ∀ q, quote? = some q → q ∉ value.toList) :
    renderValue quote? value = CharacterReference.escapeAngles value := by
  have hchar : ∀ c ∈ value.toList, escapeInValue quote? c = CharacterReference.escapeAngle c := by
    intro c hc
    by_cases hleft : c = '<'
    · subst hleft
      rfl
    · by_cases hright : c = '>'
      · subst hright
        rfl
      · rw [escapeInValue_of_ne hleft hright fun heq => h c heq hc,
          CharacterReference.escapeAngle_of_ne hleft hright]
  have hall : value.toList.map (escapeInValue quote?) =
      value.toList.map CharacterReference.escapeAngle := List.map_congr_left hchar
  rw [renderValue, CharacterReference.escapeAngles, List.flatMap_def, hall, List.flatMap_def]

theorem Attribute.Shaped.quote_not_mem {a : Attribute} (ha : a.Shaped) {value : String}
    (hvalue : a.value = some value) : ∀ q, a.quote = some q → q ∉ value.toList := by
  intro q hq
  have := ha.value
  rw [hvalue, hq] at this
  exact this.2

theorem Attribute.Shaped.value_asWritten {a : Attribute} (ha : a.Shaped) :
    a.asWritten.value = a.value.map CharacterReference.escapeAngles := by
  unfold Attribute.asWritten
  cases hvalue : a.value with
  | none => rfl
  | some value =>
    rw [Option.map_some, Option.map_some,
      renderValue_eq_escapeAngles (ha.quote_not_mem hvalue)]

/-- A browser takes the written value as it takes the value. -/
theorem Attribute.unescape_asWritten (a : Attribute) :
    CharacterReference.unescape (a.asWritten.value.getD "") =
      CharacterReference.unescape (a.value.getD "") := by
  unfold asWritten
  cases a.value with
  | none => rfl
  | some value => exact unescape_renderValue a.quote value

namespace SafetySetting

theorem name_plain (s : SafetySetting) :
    ∀ c ∈ (AsciiCase.lower s.name).toList, c ≠ '&' ∧ c ≠ '<' ∧ c ≠ '>' := by
  cases s <;> decide

/-- The value of a setting is written as it is. -/
theorem noAngles_value (n : Networking) (s : SafetySetting) : NoAngles (s.value n).toList := by
  cases s <;> cases n <;> exact ⟨by decide, by decide⟩

/-- A text with an ampersand or an angle bracket names no setting. -/
theorem ofName?_eq_none {text : String} {c : Char} (hc : c ∈ text.toList)
    (hspecial : c = '&' ∨ c = '<' ∨ c = '>') : ofName? text = none := by
  refine List.find?_eq_none.2 fun s _ hsame => ?_
  have hlower : c ∈ (AsciiCase.lower text).toList := by
    rw [AsciiCase.toList_lower]
    refine List.mem_map.2 ⟨c, hc, ?_⟩
    rcases hspecial with rfl | rfl | rfl <;> decide
  rw [← (AsciiCase.same_iff ..).1 hsame] at hlower
  obtain ⟨hamp, hleft, hright⟩ := s.name_plain c hlower
  rcases hspecial with h | h | h <;> contradiction

/-- Escaped angle brackets do not make a name one of a setting, nor unmake it. -/
theorem ofName?_escapeAngles (name : String) :
    ofName? (CharacterReference.escapeAngles name) = ofName? name := by
  by_cases hangles : NoAngles name.toList
  · rw [escapeAngles_of_noAngles hangles]
  · rw [ofName?_eq_none (amp_mem_escapeAngles hangles) (.inl rfl)]
    by_cases hleft : '<' ∈ name.toList
    · rw [ofName?_eq_none hleft (.inr (.inl rfl))]
    · have hright : '>' ∈ name.toList := by
        by_contra hright
        exact hangles ⟨hleft, hright⟩
      rw [ofName?_eq_none hright (.inr (.inr rfl))]

end SafetySetting

/-! ## Verdicts on written elements -/

/-- The listener on links leaves an element one that can be written. -/
theorem Element.Shaped.applyAll {listeners : List ElementListener}
    (hl : ∀ l ∈ listeners, l = .linkRel) {e : Element} (he : e.Shaped) :
    (ElementListener.applyAll listeners e).Shaped := by
  have hone : ∀ e : Element, e.Shaped → (ElementListener.linkRel.onElement e).Shaped := by
    intro e he
    unfold ElementListener.linkRel
    dsimp only
    split
    · refine ⟨he.name, fun a ha => ?_, ?_⟩
      · rcases Attributes.mem_set ha with hmem | ⟨-, rfl | ⟨b, hb, rfl⟩⟩
        · exact he.attributes a hmem
        · exact .ofValue (by decide) (by decide) (by decide)
        · exact (he.attributes b hb).setValue ⟨by decide, by decide⟩
      · rw [Element.mapAttributes]
        exact Attributes.nodup_set he.keys
    · exact he
  induction listeners generalizing e with
  | nil => exact he
  | cons l listeners ih =>
    have hfirst := hone e he
    rw [← hl l (List.mem_cons_self ..)] at hfirst
    exact ih (fun l' hl' => hl l' (List.mem_cons_of_mem _ hl')) hfirst

namespace Filter

variable {f : Filter}

/-- The element after the decision on it can be written if it could before. -/
theorem shaped_decide (hf : f.policy.ProtectsLinksOnly) {e : Element} (he : e.Shaped)
    (parent? : Option String) (neverClosed : Bool) : (f.decide e parent? neverClosed).2.Shaped := by
  have hdecided : (decideElement (f.policy.ruleFor? e) e).2.Shaped := by
    unfold decideElement
    cases hrule : f.policy.ruleFor? e with
    | none => exact ⟨he.name, he.attributes, he.keys⟩
    | some rule =>
      dsimp only
      split
      · exact ⟨he.name, he.attributes, he.keys⟩
      · have happlied := he.applyAll (hf.elements _ _ hrule)
        exact ⟨happlied.name, happlied.attributes, happlied.keys⟩
  have hlisted : ∀ (d : Decision) (owner : String) (a : Attribute),
      ∃ b, f.decideListed (f.policy.ruleFor? e) d owner a = a.setEnabled b := by
    intro d owner a
    obtain ⟨b, heq, -⟩ := decideListed_eq hf.attributes (f.policy.ruleFor? e) d owner a
    exact ⟨b, heq⟩
  simp only [decide]
  split
  · exact hdecided
  · split
    · exact ⟨hdecided.name, hdecided.attributes, hdecided.keys⟩
    · refine ⟨hdecided.name, fun a ha => ?_, ?_⟩
      · obtain ⟨a', ha', rfl⟩ := List.mem_map.1 ha
        obtain ⟨b, heq⟩ := hlisted _ _ a'
        rw [heq]
        exact (hdecided.attributes a' ha').setEnabled b
      · refine Eq.subst (motive := List.Nodup) ?_ hdecided.keys
        simp only [Element.mapAttributes, Attributes.map, Attributes.keys, List.map_map]
        refine List.map_congr_left fun a _ => ?_
        obtain ⟨b, heq⟩ := hlisted _ _ a
        rw [Function.comp_apply, heq, Attribute.key_setEnabled]

/-- The element after it is judged can be written if it could before. -/
theorem shaped_judge (hf : f.policy.ProtectsLinksOnly) (g : ObjectGuard) {e : Element}
    (he : e.Shaped) (parent? : Option String) (neverClosed : Bool) :
    (f.judge g e parent? neverClosed).element.Shaped :=
  (guarded_protect f g (shaped_decide hf he parent? neverClosed) _).1.toShaped

theorem shaped_listed (hf : f.Plain) {e : Element} (he : e.Shaped) {rule : ElementRule}
    (hrule : f.policy.elementRule? e.name = some rule) : (f.listed rule e).Shaped := by
  have hshaped := he.applyAll (hf.listeners _ _ hrule)
  refine ⟨he.name, fun a ha => ?_, ?_⟩
  · obtain ⟨b, hb, rfl⟩ := List.mem_map.1 ha
    obtain ⟨enabled, heq, -⟩ :=
      decideListed_eq hf.attributeListeners (some rule) .allowed e.name b
    rw [heq]
    exact (hshaped.attributes b hb).setEnabled enabled
  · have hkeys : (f.listed rule e).attributes.keys =
        (ElementListener.applyAll rule.listeners e).attributes.keys := by
      simp only [listed, Attributes.keys, Attributes.map, List.map_map]
      refine List.map_congr_left fun a _ => ?_
      obtain ⟨enabled, heq, -⟩ :=
        decideListed_eq hf.attributeListeners (some rule) .allowed e.name a
      rw [Function.comp_apply, heq, Attribute.key_setEnabled]
    rw [hkeys]
    exact hshaped.keys

/-- The verdict on an element that its rule allows. -/
theorem judge_of_rule (hf : f.Plain) {g : ObjectGuard} (hg : g.Internal) {e : Element}
    (hc : e.condition = none) {rule : ElementRule}
    (hrule : f.policy.elementRule? e.name = some rule)
    (hallowed : decideEndTag (some rule) = .allowed) (parent? : Option String)
    (neverClosed : Bool) :
    (f.judge g e parent? neverClosed).decision = .allowed ∧
      (f.judge g e parent? neverClosed).element = (f.listed rule e).mapAttributes
        (Attributes.forceAll (f.forcedValues (f.listed rule e))) := by
  simp only [judge, decide_of_rule hf.hasLocalListeners hf.place hc hrule hallowed]
  exact ⟨trivial, protect_allowed hf.network hg _⟩

/-- Whether an attribute is allowed depends on its name and on the value as a browser takes it. -/
theorem enabled_decideListed
    (hf : ∀ name rule, f.policy.attributeRule? name = some rule → rule.listeners = [])
    (rule? : Option ElementRule) (d : Decision) (owner : String) {a b : Attribute}
    (hname : b.name = a.name)
    (hvalue : CharacterReference.unescape (b.value.getD "") =
      CharacterReference.unescape (a.value.getD "")) :
    (f.decideListed rule? d owner b).enabled = (f.decideListed rule? d owner a).enabled := by
  unfold decideListed
  rw [hname]
  split
  · cases hrule : f.policy.attributeRule? a.name with
    | none => rfl
    | some r =>
      have haccepts : r.accepts owner b.value = r.accepts owner a.value := by
        simp only [AttributeRule.accepts, AttributeRule.acceptsValue, effectiveValue, hvalue]
      simp only [decideAttribute, hf _ r hrule, haccepts]
      rfl
  · rfl

/-- The verdict on the element, wherever it stands, is that it is allowed as it is. -/
structure Settled (f : Filter) (x : Element) : Prop where
  condition : x.condition = none
  ending : x.ending = .missing
  judge : ∀ (g : ObjectGuard) (parent? : Option String) (neverClosed : Bool), g.Internal →
    (f.judge g x parent? neverClosed).decision = .allowed ∧
      (f.judge g x parent? neverClosed).element = x

theorem settingOf?_eq (as : Attributes) : settingOf? as =
    (as.get? "name").bind fun a => a.value.bind SafetySetting.ofName? := by
  rw [settingOf?, Attributes.value?]
  cases as.get? "name" <;> rfl

/-- A parameter names the same setting after its attributes are decided on. -/
theorem settingOf?_decideListed
    (hf : ∀ name rule, f.policy.attributeRule? name = some rule → rule.listeners = [])
    (rule? : Option ElementRule) (d : Decision) (owner : String) (as : Attributes) :
    settingOf? (as.map (f.decideListed rule? d owner)) = settingOf? as := by
  have hone : ∀ a, (f.decideListed rule? d owner a).key = a.key ∧
      (f.decideListed rule? d owner a).value = a.value := by
    intro a
    obtain ⟨b, heq, -⟩ := decideListed_eq hf rule? d owner a
    rw [heq]
    exact ⟨rfl, rfl⟩
  rw [settingOf?_eq, settingOf?_eq, Attributes.get?_map fun a => (hone a).1]
  cases as.get? "name" with
  | none => rfl
  | some a => simp only [Option.map_some, Option.bind_some, (hone a).2]

/-- A forced value does not change which setting a parameter names. -/
theorem settingOf?_force (value : String) (as : Attributes) :
    settingOf? (ObjectGuard.force "value" value as) = settingOf? as := by
  rw [settingOf?_eq, settingOf?_eq, Attributes.get?_force_of_ne (by decide)]

/-- A parameter names the same setting after the guard has seen it. -/
theorem settingOf?_param (urls : UrlAllowList) (g : ObjectGuard) (e : Element) :
    settingOf? (g.param urls e).2.attributes = settingOf? e.attributes := by
  rw [param_eq]
  cases hsetting : settingOf? e.attributes with
  | none => exact hsetting
  | some s =>
    dsimp only
    rw [← hsetting]
    exact settingOf?_force _ e.attributes

/-- A parameter names the same setting when its attributes are written. -/
theorem settingOf?_asWritten {as : Attributes} (has : ∀ a ∈ as.toList, a.Shaped) :
    settingOf? (as.map Attribute.asWritten) = settingOf? as := by
  rw [settingOf?_eq, settingOf?_eq, Attributes.get?_map Attribute.key_asWritten]
  cases hget : as.get? "name" with
  | none => rfl
  | some a =>
    have ha : a.Shaped := has a (List.mem_of_find?_eq_some hget)
    rw [Option.map_some, Option.bind_some, Option.bind_some, ha.value_asWritten]
    cases a.value with
    | none => rfl
    | some value =>
      rw [Option.map_some, Option.bind_some, Option.bind_some,
        SafetySetting.ofName?_escapeAngles]

/-- What is forced depends on the name of the element, and on the setting that a parameter names. -/
theorem forcedValues_congr {e x : Element} (hname : x.name = e.name)
    (hsetting : e.isNamed "param" = true → settingOf? x.attributes = settingOf? e.attributes) :
    f.forcedValues x = f.forcedValues e := by
  have hnamed : ∀ name, x.isNamed name = e.isNamed name := fun name => by
    rw [Element.isNamed, Element.isNamed, hname]
  unfold forcedValues
  rw [hnamed, hnamed]
  split
  · split
    · next hparam =>
      have h := hsetting hparam
      rw [settingOf?, settingOf?] at h
      rw [h]
    · rfl
  · rfl

/-- A forced value does not change which setting a parameter names. -/
theorem settingOf?_forced {e : Element} (h : e.isNamed "param" = true) :
    settingOf? (Attributes.forceAll (f.forcedValues e) e.attributes) = settingOf? e.attributes := by
  have hforced : f.forcedValues e = [] ∨ ∃ value, f.forcedValues e = [("value", value)] := by
    unfold forcedValues
    rw [if_pos h]
    split
    · split
      · exact .inr ⟨_, rfl⟩
      · exact .inl rfl
    · exact .inl rfl
  rcases hforced with hnone | ⟨value, hone⟩
  · rw [hnone]
    rfl
  · rw [hone, settingOf?, settingOf?, Attributes.value?, Attributes.value?]
    simp only [Attributes.forceAll, List.foldl_cons, List.foldl_nil]
    rw [Attributes.get?_force_of_ne (by decide)]

theorem value_of_mem_forcedValues {e : Element} {v : String × String}
    (hv : v ∈ f.forcedValues e) : ∃ s : SafetySetting, v.2 = s.value .internal := by
  unfold forcedValues at hv
  split at hv
  · split at hv
    · split at hv
      · next s _ => exact ⟨s, by rw [List.mem_singleton.1 hv]⟩
      · exact absurd hv List.not_mem_nil
    · split at hv
      · obtain ⟨s, -, heq⟩ := List.mem_map.1 hv
        exact ⟨s, by rw [← heq]⟩
      · exact absurd hv List.not_mem_nil
  · exact absurd hv List.not_mem_nil

/-- Forced values are written as they are. -/
theorem renderValue_forced {e : Element} {v : String × String} (hv : v ∈ f.forcedValues e)
    {quote? : Option Char} (hquote : quote? = none ∨ quote? = some '"' ∨ quote? = some '\'') :
    renderValue quote? v.2 = v.2 := by
  obtain ⟨s, hs⟩ := value_of_mem_forcedValues hv
  rw [hs]
  refine renderValue_eq_self (s.noAngles_value _) fun q hq => ?_
  rcases hquote with rfl | rfl | rfl
  · cases hq
  · cases hq
    exact (s.value_noQuotes _).1
  · cases hq
    exact (s.value_noQuotes _).2

/-- Nothing is forced on links. -/
theorem forcedValues_link {e : Element} (h : e.isNamed "a" = true) : f.forcedValues e = [] := by
  have hlower : AsciiCase.lower e.name = AsciiCase.lower "a" := (AsciiCase.same_iff ..).1 h
  have hne : ∀ name, AsciiCase.lower "a" ≠ AsciiCase.lower name → ¬ e.isNamed name = true := by
    intro name hname hnamed
    exact hname (hlower.symm.trans ((AsciiCase.same_iff ..).1 hnamed))
  unfold forcedValues
  rw [if_neg (hne "param" (by decide)), if_neg (hne "embed" (by decide))]
  split <;> rfl

/-- The listener on links finds what it wants in an element as it was written. -/
theorem protects_written (hf : f.Plain) {e : Element} {rule : ElementRule}
    (hrule : f.policy.elementRule? e.name = some rule) (he : e.Shaped) {x : Element}
    (hname : x.name = e.name)
    (hx : x.attributes = (Attributes.forceAll (f.forcedValues (f.listed rule e))
      (f.listed rule e).attributes).map Attribute.asWritten) :
    ElementListener.Protects rule.listeners x := by
  have hnamed : x.isNamed "a" = e.isNamed "a" := by
    rw [Element.isNamed, Element.isNamed, hname]
  obtain ⟨h, happly⟩ := ElementListener.applyAll_eq (hf.hasLocalListeners _ _ hrule)
  rcases ElementListener.protects_applyAll (hf.listeners _ _ hrule) e with
    hnone | hother | ⟨hcontains, hholds⟩
  · exact .inl hnone
  · rw [happly] at hother
    exact .inr (.inl (hnamed.trans hother))
  · by_cases ha : e.isNamed "a" = true
    · have hkey : ∀ a, (f.decideListed (some rule) .allowed e.name a).asWritten.key = a.key := by
        intro a
        obtain ⟨b, heq, -⟩ := decideListed_eq hf.attributeListeners (some rule) .allowed e.name a
        rw [heq, Attribute.key_asWritten, Attribute.key_setEnabled]
      have hlink : (f.listed rule e).isNamed "a" = true := ha
      rw [forcedValues_link hlink] at hx
      have hkeys : x.attributes.keys =
          (ElementListener.applyAll rule.listeners e).attributes.keys := by
        rw [hx]
        simp only [Attributes.forceAll, List.foldl_nil, listed, Attributes.keys, Attributes.map,
          List.map_map]
        exact List.map_congr_left fun a _ => hkey a
      refine .inr (.inr ⟨?_, fun a ha hrel => ?_⟩)
      · rw [Attributes.contains_iff] at hcontains ⊢
        rw [hkeys]
        exact hcontains
      · rw [hx] at ha
        obtain ⟨b, hb, rfl⟩ := List.mem_map.1 ha
        obtain ⟨c, hc, rfl⟩ := List.mem_map.1 hb
        obtain ⟨hvalue, hquote⟩ := hholds c hc ((hkey c).symm.trans hrel)
        obtain ⟨enabled, heq, -⟩ :=
          decideListed_eq hf.attributeListeners (some rule) .allowed e.name c
        have hshaped := (he.applyAll (hf.listeners _ _ hrule)).attributes c hc
        rw [heq]
        refine ⟨?_, hquote⟩
        rw [(hshaped.setEnabled enabled).value_asWritten, Attribute.setEnabled, hvalue,
          Option.map_some]
        exact congrArg some (by decide)
    · exact .inr (.inl (hnamed.trans (by simpa using ha)))

/-- Forced values are forced once: they are the same when the attributes are written and decided on
again. -/
theorem forceAll_written (hf : f.Plain) {e : Element} {rule : ElementRule}
    (hshaped : ∀ a ∈ (Attributes.forceAll (f.forcedValues (f.listed rule e))
      (f.listed rule e).attributes).toList, a.Shaped ∧ a.enabled = true) :
    let as := (Attributes.forceAll (f.forcedValues (f.listed rule e))
      (f.listed rule e).attributes).map Attribute.asWritten
    Attributes.forceAll (f.forcedValues (f.listed rule e))
      (as.map (f.decideListed (some rule) .allowed e.name)) = as := by
  intro as
  have hdecide : ∀ a, f.decideListed (some rule) .allowed e.name a =
      a.setEnabled (f.decideListed (some rule) .allowed e.name a).enabled := by
    intro a
    obtain ⟨b, heq, -⟩ := decideListed_eq hf.attributeListeners (some rule) .allowed e.name a
    rw [heq]
    rfl
  have hmap : as.map (f.decideListed (some rule) .allowed e.name) =
      as.map fun a => a.setEnabled (f.decideListed (some rule) .allowed e.name a).enabled := by
    rw [← funext hdecide]
  have hkeys : as.keys = (Attributes.forceAll (f.forcedValues (f.listed rule e))
      (f.listed rule e).attributes).keys := by
    simp only [as, Attributes.keys, Attributes.map, List.map_map]
    exact List.map_congr_left fun a _ => a.key_asWritten
  rw [hmap]
  refine Attributes.forceAll_eq_self (fun v hv => ?_) (fun a ha v hv hkey => ?_) _ fun a ha => ?_
  · rw [Attributes.contains_iff, hkeys, ← Attributes.contains_iff]
    exact (Attributes.contains_forceAll _ _).1 v hv
  · obtain ⟨b, hb, rfl⟩ := List.mem_map.1 ha
    rw [Attribute.key_asWritten] at hkey
    obtain ⟨hvalue, hquote⟩ :=
      (Attributes.holds_forceAll (nodup_forcedValues hf.network _) hb hv hkey).1
    refine ⟨⟨?_, hquote⟩, rfl⟩
    rw [Attribute.asWritten, hvalue, Option.map_some,
      renderValue_forced hv (hshaped b hb).1.quote_cases]
  · obtain ⟨b, hb, rfl⟩ := List.mem_map.1 ha
    by_cases hforced : ∃ v ∈ f.forcedValues (f.listed rule e), b.key = AsciiCase.lower v.1
    · obtain ⟨v, hv, hkey⟩ := hforced
      exact .inr ⟨v, hv, b.key_asWritten.trans hkey⟩
    · -- the attribute was enabled by its rule, and its value is still taken as the same
      have hmem := Attributes.mem_of_mem_forceAll hb fun v hv hkey => hforced ⟨v, hv, hkey⟩
      obtain ⟨c, -, rfl⟩ := List.mem_map.1 hmem
      refine .inl ?_
      show _ = true
      rw [← (hshaped _ hb).2]
      refine enabled_decideListed hf.attributeListeners _ _ _ ?_ ?_
      · rw [hdecide c]
        rfl
      · rw [hdecide c]
        exact Attribute.unescape_asWritten _

/-- **A written element is settled** if it was allowed with all of its attributes.

*Proof sketch.* Its rule is the same, and the listener on links finds its value there. The rules of
the attributes allow them again, since a browser takes the written values as it takes the values;
only what the guard forces may be disabled, and that is enabled and forced to the same values. -/
theorem settled_asWritten (hf : f.Plain) {g : ObjectGuard} (hg : g.Internal) {e : Element}
    (hc : e.condition = none) (he : e.Shaped) (parent? : Option String) (neverClosed : Bool)
    (hd : (f.judge g e parent? neverClosed).decision = .allowed)
    (henabled : ∀ a ∈ (f.judge g e parent? neverClosed).element.attributes.toList,
      a.enabled = true) :
    Settled f (f.judge g e parent? neverClosed).element.asWritten := by
  obtain ⟨rule, hrule, hallowed⟩ := rule_of_decide hf hc hd
  have hlisted := shaped_listed hf he hrule
  have hshaped : ((f.listed rule e).mapAttributes
      (Attributes.forceAll (f.forcedValues (f.listed rule e)))).Shaped := by
    rw [← protect_allowed hf.network hg]
    exact (guarded_protect f g hlisted .allowed).1.toShaped
  have hwritable : ∀ a ∈ (Attributes.forceAll (f.forcedValues (f.listed rule e))
      (f.listed rule e).attributes).toList, a.Shaped := hshaped.attributes
  rw [(judge_of_rule hf hg hc hrule hallowed parent? neverClosed).2] at henabled ⊢
  generalize hx : ((f.listed rule e).mapAttributes
    (Attributes.forceAll (f.forcedValues (f.listed rule e)))).asWritten = x
  have hname : x.name = e.name := by
    rw [← hx]
    rfl
  have hattributes : x.attributes = (Attributes.forceAll (f.forcedValues (f.listed rule e))
      (f.listed rule e).attributes).map Attribute.asWritten := by
    rw [← hx]
    have hall := List.filter_eq_self.2 henabled
    simp only [Element.asWritten, Attributes.enabled, hall]
    rfl
  have hcondition : x.condition = none := by
    rw [← hx]
    rfl
  have hending : x.ending = .missing := by
    rw [← hx]
    rfl
  have hself : x.enabled = true := by
    rw [← hx]
    rfl
  refine ⟨hcondition, hending, fun g' parent?' neverClosed' hg' => ?_⟩
  have hrule' : f.policy.elementRule? x.name = some rule := hname.symm ▸ hrule
  obtain ⟨hdecision, helement⟩ :=
    judge_of_rule hf hg' hcondition hrule' hallowed parent?' neverClosed'
  have happly : ElementListener.applyAll rule.listeners x = x :=
    ElementListener.applyAll_of_protects (hf.listeners _ _ hrule)
      (protects_written hf hrule he hname hattributes)
  have hlisted' : f.listed rule x =
      x.mapAttributes (·.map (f.decideListed (some rule) .allowed x.name)) := by
    rw [listed, happly, ← hself]
    rfl
  have hvalues : f.forcedValues (f.listed rule x) = f.forcedValues (f.listed rule e) := by
    refine forcedValues_congr hname fun hparam => ?_
    rw [hlisted', Element.mapAttributes, settingOf?_decideListed hf.attributeListeners,
      hattributes, settingOf?_asWritten hwritable, settingOf?_forced hparam]
  refine ⟨hdecision, helement.trans ?_⟩
  have hforce := forceAll_written hf fun a ha => ⟨hwritable a ha, henabled a ha⟩
  rw [← hattributes, ← hname] at hforce
  rw [hvalues, hlisted']
  simp only [Element.mapAttributes, hforce]

end Filter

end MarkupFilter
