import MarkupFilter.Proofs.Filter.SafeMarkup
import MarkupFilter.Proofs.Markup.RecasedPieces

/-!
# Blindness to the letter case of names

Without listeners a filter decides by names up to letter case. Two runs on texts that differ only in
the letter case of names go side by side: rules, open elements and the object guard are asked for the
same names, so the decisions are the same, and what is written differs in the case of letters only.

## Main definitions

* `Filter.Progress.SameUpToCase`, `PieceState.SameUpToCase` — two runs side by side.

## Main results

* `Filter.lower_judge` — the verdict on an element with lowered names.
* `Filter.sameUpToCase_walk`, `Filter.sameUpToCase_step` — a walk through a tree, and one piece.
* `Filter.names_case_ignored` — the outputs for a text and for one with recased names.
-/

set_option autoImplicit false

namespace MarkupFilter

open CharacterReference

/-! ## Rules -/

namespace Policy

variable (p : Policy)

@[simp] theorem elementRule?_lower (name : String) :
    p.elementRule? (AsciiCase.lower name) = p.elementRule? name := by
  rw [elementRule?, elementRule?, RuleTable.find?, RuleTable.find?, AsciiCase.lower_lower]

@[simp] theorem attributeRule?_lower (name : String) :
    p.attributeRule? (AsciiCase.lower name) = p.attributeRule? name := by
  rw [attributeRule?, attributeRule?, RuleTable.find?, RuleTable.find?, AsciiCase.lower_lower]

@[simp] theorem ruleFor?_lower (e : Element) : p.ruleFor? e.lower = p.ruleFor? e := by
  cases hconditional : e.isConditional <;> simp [ruleFor?, hconditional]

/-- The rule of an element around depends on its name up to letter case. -/
theorem bind_elementRule?_congr {parent? parent?' : Option String}
    (h : parent?'.map AsciiCase.lower = parent?.map AsciiCase.lower) :
    parent?'.bind p.elementRule? = parent?.bind p.elementRule? := by
  have hlower : ∀ q? : Option String,
      q?.bind p.elementRule? = (q?.map AsciiCase.lower).bind p.elementRule? := fun q? => by
    cases q? <;> simp
  rw [hlower parent?', h, ← hlower]

end Policy

@[simp] theorem ElementRule.allowsAttribute_lower (rule : ElementRule) (name : String) :
    rule.allowsAttribute (AsciiCase.lower name) = rule.allowsAttribute name := by
  rw [allowsAttribute, allowsAttribute, AsciiCase.lower_lower]

@[simp] theorem ElementRule.allowsChild_lower (rule : ElementRule) (name : String) :
    rule.allowsChild (AsciiCase.lower name) = rule.allowsChild name := by
  rw [allowsChild, allowsChild, AsciiCase.lower_lower]

theorem AttributeRule.accepts_lower (rule : AttributeRule) (owner : String)
    (value? : Option String) :
    rule.accepts (AsciiCase.lower owner) value? = rule.accepts owner value? := by
  rw [accepts, accepts, isException, isException, AsciiCase.lower_lower]

/-! ## Decisions -/

theorem decideElement_lower (rule? : Option ElementRule)
    (hl : ∀ rule, rule? = some rule → rule.listeners = []) (e : Element) :
    decideElement rule? e.lower =
      ((decideElement rule? e).1, (decideElement rule? e).2.lower) := by
  cases rule? with
  | none => rfl
  | some rule =>
    simp only [decideElement, hl rule rfl, ElementListener.applyAll, List.foldl_nil, ite_self]
    rfl

theorem decideAttribute_lower {rule? : Option AttributeRule}
    (hl : ∀ rule, rule? = some rule → rule.listeners = []) (a : Attribute) (owner : String) :
    (decideAttribute rule? a owner).lower =
      decideAttribute rule? a.lower (AsciiCase.lower owner) := by
  cases rule? with
  | none => exact a.lower_setEnabled false
  | some rule =>
    simp only [decideAttribute, hl rule rfl, AttributeListener.applyAll, List.foldl_nil,
      AttributeRule.accepts_lower, Attribute.value_lower]
    exact a.lower_setEnabled _

namespace Filter

variable {f : Filter} {parent? parent?' : Option String}

theorem placeDecision_lower
    (hparent : parent?'.map AsciiCase.lower = parent?.map AsciiCase.lower)
    (rule? : Option ElementRule) (d : Decision) (e : Element) (neverClosed : Bool) :
    f.placeDecision rule? d e.lower parent?' neverClosed =
      f.placeDecision rule? d e parent? neverClosed := by
  simp only [placeDecision, f.policy.bind_elementRule?_congr hparent, Element.name_lower,
    ElementRule.allowsChild_lower]

theorem decideListed_lower (hf : f.policy.ListenerFree) (rule? : Option ElementRule) (d : Decision)
    (owner : String) (a : Attribute) :
    (f.decideListed rule? d owner a).lower =
      f.decideListed rule? d (AsciiCase.lower owner) a.lower := by
  simp only [decideListed, Attribute.name_lower, ElementRule.allowsAttribute_lower,
    Policy.attributeRule?_lower]
  split
  · exact decideAttribute_lower (fun rule hrule => hf.2 a.name rule hrule) a owner
  · exact a.lower_setEnabled false

/-- The decision on an element does not depend on the letter case of names. -/
theorem decide_lower (hf : f.policy.ListenerFree)
    (hparent : parent?'.map AsciiCase.lower = parent?.map AsciiCase.lower) (e : Element)
    (neverClosed : Bool) :
    f.decide e.lower parent?' neverClosed =
      ((f.decide e parent? neverClosed).1, (f.decide e parent? neverClosed).2.lower) := by
  have helement := decideElement_lower (f.policy.ruleFor? e) (fun rule hrule => hf.1 _ rule hrule) e
  generalize hdecided : decideElement (f.policy.ruleFor? e) e = decided at helement
  obtain ⟨d, e'⟩ := decided
  simp only [decide, Policy.ruleFor?_lower, helement, hdecided, Element.isConditional_lower,
    placeDecision_lower hparent]
  by_cases hconditional : e'.isConditional = true
  · simp only [hconditional, if_true]
  · simp only [hconditional, if_false, Bool.false_eq_true]
    split
    · rfl
    · simp only [Element.mapAttributes, Element.lower, Element.setEnabled,
        Attributes.lower_map (decideListed_lower hf _ _ _)]

/-! ## Verdicts -/

/-- A value that is forced on lowered attributes is forced on them as written. -/
theorem lower_force_lower (as : Attributes) (name value : String) :
    (ObjectGuard.force name value as.lower).lower = (ObjectGuard.force name value as).lower := by
  rw [Attributes.lower_force, Attributes.lower_force, Attributes.lower_lower]

theorem lower_embed (urls : UrlAllowList) (e : Element) :
    (ObjectGuard.embed urls e.lower).lower = (ObjectGuard.embed urls e).lower := by
  have hall : ∀ (settings : List SafetySetting) (networking : Networking) (as bs : Attributes),
      as.lower = bs.lower →
      (settings.foldl (fun as s => ObjectGuard.force s.name (s.value networking) as) as).lower =
        (settings.foldl (fun as s => ObjectGuard.force s.name (s.value networking) as) bs).lower := by
    intro settings networking
    induction settings with
    | nil => exact fun _ _ h => h
    | cons s settings ih =>
      intro as bs h
      rw [List.foldl_cons, List.foldl_cons]
      exact ih _ _ (by rw [Attributes.lower_force, Attributes.lower_force, h])
  simp only [ObjectGuard.embed, Element.attributes_lower, Attributes.value?_lower]
  have := hall SafetySetting.all
  simp only [Element.mapAttributes, Element.lower, AsciiCase.lower_lower,
    this _ _ _ e.attributes.lower_lower]

theorem lower_param (urls : UrlAllowList) (g : ObjectGuard) (e : Element) :
    (g.param urls e.lower).1 = (g.param urls e).1 ∧
      (g.param urls e.lower).2.lower = (g.param urls e).2.lower := by
  have hname : e.lower.attributes.value? "name" = e.attributes.value? "name" := by simp
  have hvalue : e.lower.attributes.value? "value" = e.attributes.value? "value" := by simp
  rw [ObjectGuard.param, ObjectGuard.param, hname, hvalue]
  cases e.attributes.value? "name" with
  | none => simp only [Element.lower_lower, and_self]
  | some name =>
    dsimp only
    cases SafetySetting.ofName? name with
    | none => simp only [Element.lower_lower, and_self]
    | some s =>
      simp only [Element.mapAttributes, Element.lower, AsciiCase.lower_lower, lower_force_lower,
        and_self]

/-- The verdict with all names in small letters. -/
def Verdict.lower (v : Verdict) : Verdict :=
  { v with element := v.element.lower }

/-- The safety settings of an element do not depend on the letter case of names. -/
theorem lower_protect (g : ObjectGuard) (e : Element) (d : Decision) :
    (f.protect g e.lower d).1 = (f.protect g e d).1 ∧
      (f.protect g e.lower d).2.1 = (f.protect g e d).2.1 ∧
      (f.protect g e.lower d).2.2.lower = (f.protect g e d).2.2.lower := by
  simp only [protect, Element.isNamed_lower, Element.selfClosed_lower]
  split
  · split
    · exact ⟨rfl, lower_param _ g e⟩
    · split
      · exact ⟨rfl, rfl, lower_embed _ e⟩
      · split
        · exact ⟨rfl, rfl, e.lower_lower⟩
        · exact ⟨rfl, rfl, e.lower_lower⟩
  · exact ⟨rfl, rfl, e.lower_lower⟩

/-- **The verdict on an element does not depend on the letter case of names.** -/
theorem lower_judge (hf : f.policy.ListenerFree)
    (hparent : parent?'.map AsciiCase.lower = parent?.map AsciiCase.lower) (g : ObjectGuard)
    (e : Element) (neverClosed : Bool) :
    (f.judge g e.lower parent?' neverClosed).lower = (f.judge g e parent? neverClosed).lower := by
  simp only [judge, decide_lower hf hparent]
  obtain ⟨hkey, hguard, helement⟩ :=
    lower_protect (f := f) g (f.decide e parent? neverClosed).2 (f.decide e parent? neverClosed).1
  simp only [Verdict.lower, hkey, hguard, helement]

end Filter

/-! ## What is written -/

theorem lower_escapeAngles {s s' : String} (h : AsciiCase.lower s' = AsciiCase.lower s) :
    AsciiCase.lower (escapeAngles s') = AsciiCase.lower (escapeAngles s) := by
  -- a character and its other case are written alike
  have hchar : ∀ c : Char, (escapeAngle c).map Char.toLower =
      (escapeAngle c.toLower).map Char.toLower := fun c => by
    rcases AsciiCase.mem_capitals_or c with hc | hc
    · have hall : ∀ c ∈ AsciiCase.capitals, (escapeAngle c).map Char.toLower =
          (escapeAngle c.toLower).map Char.toLower := by decide
      exact hall c hc
    · rw [hc]
  have htext : ∀ s : String, AsciiCase.lower (escapeAngles s) =
      String.ofList ((AsciiCase.lower s).toList.flatMap fun c =>
        (escapeAngle c).map Char.toLower) := fun s => by
    rw [AsciiCase.lower, escapeAngles, String.toList_ofList, AsciiCase.toList_lower,
      List.map_flatMap, List.flatMap_map]
    simp only [← hchar]
  rw [htext, htext, h]

theorem Attribute.lower_render (a : Attribute) (quote? : Option Char) :
    AsciiCase.lower (a.lower.render quote?) = AsciiCase.lower (a.render quote?) := by
  cases hvalue : a.value <;> simp [render, hvalue]

theorem lower_join_render (as : List Attribute) (quote : Attribute → Option Char)
    (hquote : ∀ a, quote a.lower = quote a) :
    AsciiCase.lower (String.join ((as.map Attribute.lower).map fun a => a.render (quote a))) =
      AsciiCase.lower (String.join (as.map fun a => a.render (quote a))) := by
  rw [AsciiCase.lower_join, AsciiCase.lower_join, List.map_map, List.map_map, List.map_map]
  refine congrArg String.join (List.map_congr_left fun a _ => ?_)
  simp only [Function.comp_apply, hquote, Attribute.lower_render]

theorem Element.lower_renderAttributes (e : Element) :
    AsciiCase.lower e.lower.renderAttributes = AsciiCase.lower e.renderAttributes := by
  rw [renderAttributes, renderAttributes, attributes_lower, Attributes.enabled_lower]
  exact lower_join_render _ Attribute.quote Attribute.quote_lower

namespace Filter

variable {f : Filter}

theorem lower_marker {body body' : String} (h : AsciiCase.lower body' = AsciiCase.lower body) :
    AsciiCase.lower (f.marker body') = AsciiCase.lower (f.marker body) := by
  unfold marker
  split
  · simp only [AsciiCase.lower_append, h]
  · rfl

theorem lower_removedMarker {name name' : String}
    (h : AsciiCase.lower name' = AsciiCase.lower name) :
    AsciiCase.lower (f.removedMarker name') = AsciiCase.lower (f.removedMarker name) :=
  lower_marker (by simp only [AsciiCase.lower_append, lower_escapeAngles h])

theorem lower_attributeMarker (e : Element) :
    AsciiCase.lower (f.attributeMarker e.lower) = AsciiCase.lower (f.attributeMarker e) := by
  simp only [attributeMarker, Element.attributes_lower, Attributes.disabled_lower, List.isEmpty_map]
  split
  · rfl
  · refine lower_marker ?_
    simp only [AsciiCase.lower_append,
      lower_join_render e.attributes.disabled (fun _ => some '"') fun _ => rfl]

theorem lower_disabledMarker (e : Element) :
    AsciiCase.lower (f.disabledMarker e.lower) = AsciiCase.lower (f.disabledMarker e) := by
  rw [disabledMarker, disabledMarker, Element.attributes_lower, Attributes.disabled_lower,
    List.isEmpty_map]
  split
  · rfl
  · exact lower_attributeMarker e

theorem lower_renderDisabledStartTag (e : Element) :
    AsciiCase.lower (f.renderDisabledStartTag e.lower) =
      AsciiCase.lower (f.renderDisabledStartTag e) := by
  unfold renderDisabledStartTag
  cases f.settings.blockingPrefix with
  | none =>
    simp only [AsciiCase.lower_append, Element.name_lower, AsciiCase.lower_lower,
      Element.lower_renderAttributes]
    rfl
  | some p =>
    simp only [AsciiCase.lower_append, Element.name_lower, AsciiCase.lower_lower,
      Element.lower_renderAttributes]
    rfl

theorem lower_renderLiveStartTag (e : Element) :
    AsciiCase.lower (renderLiveStartTag e.lower) = AsciiCase.lower (renderLiveStartTag e) := by
  simp only [renderLiveStartTag, AsciiCase.lower_append, Element.name_lower, AsciiCase.lower_lower,
    Element.lower_renderAttributes]
  rfl

/-- A start tag with lowered names is written in the same letters, up to their case. -/
theorem lower_renderStartTag (e : Element) (d : Decision) :
    AsciiCase.lower (f.renderStartTag e.lower d) = AsciiCase.lower (f.renderStartTag e d) := by
  unfold renderStartTag
  rw [Element.condition_lower]
  cases e.condition with
  | some condition => rfl
  | none =>
    cases d with
    | removed => exact lower_removedMarker (AsciiCase.lower_lower e.name)
    | disabled =>
      simp only [AsciiCase.lower_append, lower_disabledMarker, lower_renderDisabledStartTag]
    | allowed => simp only [AsciiCase.lower_append, lower_attributeMarker, lower_renderLiveStartTag]

theorem lower_renderEndTag {name name' : String} (h : AsciiCase.lower name' = AsciiCase.lower name)
    (d : Decision) (params : List (String × String)) :
    AsciiCase.lower (f.renderEndTag name' d params) =
      AsciiCase.lower (f.renderEndTag name d params) := by
  unfold renderEndTag
  cases d with
  | removed => rfl
  | disabled => cases f.settings.blockingPrefix <;> simp only [AsciiCase.lower_append, h]
  | allowed => simp only [AsciiCase.lower_append, h]

theorem lower_renderStrayEndTag (name : String) :
    AsciiCase.lower (f.renderStrayEndTag (AsciiCase.lower name)) =
      AsciiCase.lower (f.renderStrayEndTag name) := by
  rw [renderStrayEndTag, renderStrayEndTag, Policy.elementRule?_lower]
  exact lower_renderEndTag (AsciiCase.lower_lower name) _ _

theorem lower_renderStartTag_congr {e e' : Element} (h : e'.lower = e.lower) (d : Decision) :
    AsciiCase.lower (f.renderStartTag e' d) = AsciiCase.lower (f.renderStartTag e d) := by
  rw [← lower_renderStartTag e' d, h, lower_renderStartTag]

/-! ## Trees -/

/-- The same is known of objects, and the texts written so far are the same up to letter case. -/
structure Progress.SameUpToCase (p p' : Progress) : Prop where
  guard_eq : p'.guard = p.guard
  text_eq : AsciiCase.lower p'.text = AsciiCase.lower p.text

theorem Progress.SameUpToCase.write {p p' : Progress} (h : p.SameUpToCase p') {text text' : String}
    (htext : AsciiCase.lower text' = AsciiCase.lower text) :
    (p.write text).SameUpToCase (p'.write text') := by
  refine ⟨h.guard_eq, ?_⟩
  simp only [Progress.write, AsciiCase.lower_append, h.text_eq, htext]

/-- Of two verdicts that are the same once lowered, only names differ, in the case of letters. -/
theorem Verdict.of_lower_eq {v v' : Verdict} (h : v'.lower = v.lower) :
    v'.decision = v.decision ∧ v'.objectKey? = v.objectKey? ∧ v'.guard = v.guard ∧
      v'.element.lower = v.element.lower := by
  simp only [Verdict.lower, Verdict.mk.injEq] at h
  exact ⟨h.1, h.2.2.1, h.2.2.2, h.2.1⟩

theorem sameUpToCase_startProgress {p p' : Progress} {v v' : Verdict} (hp : p.SameUpToCase p')
    (hv : v'.lower = v.lower) :
    (f.startProgress p v).SameUpToCase (f.startProgress p' v') := by
  obtain ⟨hdecision, -, hguard, helement⟩ := Verdict.of_lower_eq hv
  have hp' : Progress.SameUpToCase { p with guard := v.guard } { p' with guard := v'.guard } :=
    ⟨hguard, hp.text_eq⟩
  exact hp'.write (by rw [hdecision]; exact lower_renderStartTag_congr helement _)

theorem sameUpToCase_closeElement {p p' : Progress} {v v' : Verdict} (hp : p.SameUpToCase p')
    (hv : v'.lower = v.lower) :
    (f.closeElement v p).SameUpToCase (f.closeElement v' p') := by
  obtain ⟨hdecision, hkey, -, helement⟩ := Verdict.of_lower_eq hv
  have hname : AsciiCase.lower v'.element.name = AsciiCase.lower v.element.name :=
    congrArg Element.name helement
  have hending : v'.element.ending = v.element.ending := by
    simpa using congrArg Element.ending helement
  unfold closeElement
  rw [hending, hkey, hp.guard_eq]
  split
  · next key _ _ =>
    have hp' : Progress.SameUpToCase { p with guard := (p.guard.close key true).2 }
        { p' with guard := (p.guard.close key true).2 } := ⟨rfl, hp.text_eq⟩
    exact hp'.write (by rw [hdecision]; exact lower_renderEndTag hname _ _)
  · exact hp.write (by rw [hdecision]; exact lower_renderEndTag hname _ _)
  · exact ⟨rfl, hp.text_eq⟩
  · exact hp

/-- What is not an element is written in the same letters, up to their case. -/
theorem sameUpToCase_other {p p' : Progress} (hp : p.SameUpToCase p') {c : Content}
    (hc : ∀ e, c ≠ .element e) :
    (f.visit none p c []).SameUpToCase (f.visit none p' c.lower []) := by
  match c, hc with
  | .fragment, _ =>
    rw [show Content.lower .fragment = .fragment from rfl, visit, visit, node, node]
    exact hp
  | .text raw, _ =>
    rw [show Content.lower (.text raw) = .text raw from rfl, visit, visit, node, node]
    exact hp.write rfl
  | .comment body, _ =>
    rw [show Content.lower (.comment body) = .comment body from rfl, visit, visit, node, node]
    exact hp.write rfl
  | .stray raw (.endTag name), _ =>
    rw [Content.lower, visit, visit, node, node]
    exact hp.write (lower_renderStrayEndTag name)
  | .stray raw .conditional, _ =>
    rw [show Content.lower (.stray raw .conditional) = .stray raw .conditional from rfl, visit,
      visit, node, node]
    exact hp.write rfl
  | .element e, hc => exact absurd rfl (hc e)

/-- **Two walks side by side**: one through nodes, the other through these nodes with lowered names.

*Proof sketch.* The induction is on the number of nodes, of which both the inside of the first and
what follows it have fewer. The verdicts on the first are the same up to the letter case of names
(`lower_judge`), so its start tag, what is inside and its end tag go side by side. -/
theorem sameUpToCase_walk (hf : f.policy.ListenerFree) (nodes : List Outlined)
    {parent? parent?' : Option String}
    (hparent : parent?'.map AsciiCase.lower = parent?.map AsciiCase.lower) {p p' : Progress}
    (hp : p.SameUpToCase p') :
    (f.walk parent? p nodes).SameUpToCase (f.walk parent?' p' (nodes.map Outlined.lower)) := by
  induction hn : nodes.length using Nat.strongRecOn generalizing nodes parent? parent?' p p' with
  | _ n ih =>
    cases nodes with
    | nil => simpa using hp
    | cons o os =>
      have hdrop : (os.drop o.extent).length < n := by simp at hn ⊢; omega
      have htake : (os.take o.extent).length < n := by simp at hn ⊢; omega
      rw [List.map_cons, walk_cons, walk_cons, Outlined.extent_lower, Outlined.content_lower,
        ← List.map_take, ← List.map_drop]
      refine ih _ hdrop _ hparent ?_ rfl
      by_cases helement : ∃ e, o.content = .element e
      · obtain ⟨e, he⟩ := helement
        have hjudged := lower_judge hf hparent p.guard e e.isNeverClosed
        have hname := congrArg (fun v : Verdict => AsciiCase.lower v.element.name) hjudged
        simp only [Verdict.lower, Element.name_lower, AsciiCase.lower_lower] at hname
        rw [he, Content.lower, visit_element, visit_element, Element.isNeverClosed_lower,
          hp.guard_eq]
        refine sameUpToCase_closeElement (ih _ htake _ ?_ ?_ rfl) hjudged
        · simp only [Option.map_some, hname]
        · exact sameUpToCase_startProgress hp hjudged
      · have hc : ∀ e, o.content ≠ .element e := fun e he => helement ⟨e, he⟩
        have hc' : ∀ e, o.content.lower ≠ .element e := by
          intro e he
          cases hcontent : o.content with
          | element e' => exact hc e' hcontent
          | stray raw closing => cases closing <;> simp [hcontent, Content.lower] at he
          | fragment => simp [hcontent, Content.lower] at he
          | text raw => simp [hcontent, Content.lower] at he
          | comment body => simp [hcontent, Content.lower] at he
        rw [f.visit_other parent? p hc, f.visit_other parent?' p' hc']
        exact sameUpToCase_other hp hc

end Filter

/-! ## Piece by piece -/

/-- Of two open elements only the names differ, in the case of letters. -/
structure OpenedElement.SameUpToCase (x x' : OpenedElement) : Prop where
  lower_name : AsciiCase.lower x'.name = AsciiCase.lower x.name
  decision_eq : x'.decision = x.decision
  objectKey_eq : x'.objectKey? = x.objectKey?

/-- The same is known of objects, and the open elements are the same but for the letter case of their
names. -/
structure PieceState.SameUpToCase (st st' : PieceState) : Prop where
  guard_eq : st'.guard = st.guard
  nextNumber_eq : st'.openElements.nextNumber = st.openElements.nextNumber
  entries : ∃ es : List (OpenEntry (OpenedElement × OpenedElement)),
    st.openElements.Represents (es.map (OpenEntry.map Prod.fst)) ∧
      st'.openElements.Represents (es.map (OpenEntry.map Prod.snd)) ∧
      ∀ x ∈ es, x.item.1.SameUpToCase x.item.2

namespace PieceState.SameUpToCase

variable {st st' : PieceState}

theorem empty : SameUpToCase {} {} :=
  ⟨rfl, rfl, [], .empty, .empty, fun _ hx => nomatch hx⟩

theorem current_name (h : st.SameUpToCase st') :
    (st'.openElements.current?.map OpenedElement.name).map AsciiCase.lower =
      (st.openElements.current?.map OpenedElement.name).map AsciiCase.lower := by
  obtain ⟨es, hfst, hsnd, hsame⟩ := h.entries
  rw [hfst.current?_eq, hsnd.current?_eq]
  cases es with
  | nil => rfl
  | cons x es => exact congrArg some (hsame x List.mem_cons_self).lower_name

/-- One more element is opened in both. -/
theorem push (h : st.SameUpToCase st') {x x' : OpenedElement} (hx : x.SameUpToCase x')
    (g : ObjectGuard) :
    SameUpToCase ⟨st.openElements.push x.name x, g⟩ ⟨st'.openElements.push x'.name x', g⟩ := by
  obtain ⟨es, hfst, hsnd, hsame⟩ := h.entries
  refine ⟨rfl, congrArg (· + 1) h.nextNumber_eq,
    ⟨st.openElements.nextNumber, AsciiCase.lower x.name, false, (x, x')⟩ :: es,
    hfst.push x.name x, ?_, ?_⟩
  · have := hsnd.push x'.name x'
    rwa [hx.lower_name, h.nextNumber_eq] at this
  · intro y hy
    rcases List.mem_cons.1 hy with rfl | hy
    · exact hx
    · exact hsame y hy

/-- An end tag closes the same element in both, or none. -/
theorem close?_cases (h : st.SameUpToCase st') (name : String) :
    st.openElements.close? name = none ∧ st'.openElements.close? name = none ∨
      ∃ c c', st.openElements.close? name = some c ∧ st'.openElements.close? name = some c' ∧
        c.item.SameUpToCase c'.item ∧ c'.overdue = c.overdue ∧
        ∀ g, SameUpToCase ⟨c.remaining, g⟩ ⟨c'.remaining, g⟩ := by
  obtain ⟨es, hfst, hsnd, hsame⟩ := h.entries
  rcases hfst.close?_both hsnd name with
    hnone | ⟨before, e, after, c, c', rfl, hc, hc', hcloses, hcloses'⟩
  · exact .inl hnone
  · refine .inr ⟨c, c', hc, hc', ?_, by rw [hcloses.overdue, hcloses'.overdue]; rfl, fun g =>
      ⟨rfl, by rw [hcloses.nextNumber, hcloses'.nextNumber, h.nextNumber_eq],
        before.map OpenEntry.delay ++ after, ?_, ?_, fun x hx => ?_⟩⟩
    · rw [hcloses.item, hcloses'.item]
      exact hsame e (by simp)
    · have := hcloses.remaining
      rwa [← OpenEntry.map_map_delay, ← List.map_append] at this
    · have := hcloses'.remaining
      rwa [← OpenEntry.map_map_delay, ← List.map_append] at this
    · rcases List.mem_append.1 hx with hx | hx
      · obtain ⟨y, hy, rfl⟩ := List.mem_map.1 hx
        exact hsame y (by simp [hy])
      · exact hsame x (by simp [hx])

end PieceState.SameUpToCase

namespace Filter

variable {f : Filter} {st st' : PieceState}

theorem sameUpToCase_stepStartTag (hf : f.policy.ListenerFree) (h : st.SameUpToCase st')
    (e : Element) :
    AsciiCase.lower (f.stepStartTag st' e.lower).1 = AsciiCase.lower (f.stepStartTag st e).1 ∧
      (f.stepStartTag st e).2.SameUpToCase (f.stepStartTag st' e.lower).2 := by
  have hjudged := lower_judge hf h.current_name st.guard e false
  obtain ⟨hdecision, hkey, hguard, helement⟩ := Verdict.of_lower_eq hjudged
  have hname := congrArg Element.name helement
  have hself := congrArg Element.selfClosed helement
  simp only [Element.name_lower, Element.selfClosed_lower] at hname hself
  have hopened : (f.judge st.guard e (st.openElements.current?.map OpenedElement.name)
        false).opened.SameUpToCase
      (f.judge st.guard e.lower (st'.openElements.current?.map OpenedElement.name) false).opened :=
    ⟨hname, hdecision, hkey⟩
  simp only [stepStartTag, h.guard_eq]
  refine ⟨by rw [hdecision]; exact lower_renderStartTag_congr helement _, ?_⟩
  rw [hself, hguard]
  split
  · exact ⟨rfl, h.nextNumber_eq, h.entries⟩
  · exact h.push hopened _

theorem sameUpToCase_stepEndTag (h : st.SameUpToCase st') (name : String) :
    AsciiCase.lower (f.stepEndTag st' (AsciiCase.lower name)).1 =
        AsciiCase.lower (f.stepEndTag st name).1 ∧
      (f.stepEndTag st name).2.SameUpToCase (f.stepEndTag st' (AsciiCase.lower name)).2 := by
  rw [stepEndTag, stepEndTag, OpenElements.close?_lower]
  rcases h.close?_cases name with ⟨hc, hc'⟩ | ⟨c, c', hc, hc', hitem, hoverdue, hremaining⟩
  · simp only [hc, hc']
    exact ⟨lower_renderStrayEndTag name, h⟩
  · simp only [hc, hc', hoverdue, h.guard_eq, hitem.objectKey_eq, hitem.decision_eq]
    split
    · exact ⟨rfl, hremaining _⟩
    · exact ⟨lower_renderEndTag hitem.lower_name _ _, hremaining _⟩

/-- **One piece in two runs side by side.** -/
theorem sameUpToCase_step (hf : f.policy.ListenerFree) (h : st.SameUpToCase st') (p : Piece) :
    AsciiCase.lower (f.step st' p.lower).1 = AsciiCase.lower (f.step st p).1 ∧
      (f.step st p).2.SameUpToCase (f.step st' p.lower).2 := by
  match p with
  | .text raw => exact ⟨rfl, h⟩
  | .comment body => exact ⟨rfl, h⟩
  | .conditionalEnd raw => exact ⟨rfl, h⟩
  | .conditionalStart e =>
    have hdecided : f.decide e.lower none false =
        ((f.decide e none false).1, (f.decide e none false).2.lower) := decide_lower hf rfl e false
    simp only [Piece.lower, step, hdecided]
    exact ⟨lower_renderStartTag _ _, h⟩
  | .startTag e => exact sameUpToCase_stepStartTag hf h e
  | .endTag name raw => exact sameUpToCase_stepEndTag h name

theorem map_lower_outputsFrom (hf : f.policy.ListenerFree) (h : st.SameUpToCase st')
    (pieces : List Piece) :
    (f.outputsFrom st' (pieces.map Piece.lower)).map AsciiCase.lower =
      (f.outputsFrom st pieces).map AsciiCase.lower := by
  induction pieces generalizing st st' with
  | nil => rfl
  | cons p pieces ih =>
    obtain ⟨hout, hstate⟩ := sameUpToCase_step hf h p
    rw [List.map_cons, outputsFrom, outputsFrom, List.map_cons, List.map_cons, hout, ih hstate]

/-! ## Whole texts -/

variable {a b : String}

theorem map_lower_outputs (hf : f.policy.ListenerFree) (h : Markup.NamesRecased a b) :
    (f.outputs b).map AsciiCase.lower = (f.outputs a).map AsciiCase.lower := by
  rw [outputs, outputs, ← map_lower_outputsFrom hf .empty, h.map_lower_ofText,
    map_lower_outputsFrom hf .empty]

theorem lower_byPiece (hf : f.policy.ListenerFree) (h : Markup.NamesRecased a b) :
    AsciiCase.lower (f.byPiece b) = AsciiCase.lower (f.byPiece a) := by
  rw [byPiece, byPiece, AsciiCase.lower_join, AsciiCase.lower_join, map_lower_outputs hf h]

/-- The filtered tree is that of the pieces with lowered names, up to letter case. -/
theorem lower_byTree_eq (hf : f.policy.ListenerFree) (input : String) :
    AsciiCase.lower (f.byTree input) =
      AsciiCase.lower (f.walk none {}
        (Outline.ofPieces ((Piece.ofText input).map Piece.lower)).nodes.toList).text := by
  have hstart : Progress.SameUpToCase {} {} := ⟨rfl, rfl⟩
  have hnone : (none : Option String).map AsciiCase.lower =
    (none : Option String).map AsciiCase.lower := rfl
  have h := sameUpToCase_walk hf (Outline.ofPieces (Piece.ofText input)).nodes.toList hnone hstart
  rw [f.byTree_eq_walk hf.hasLocalListeners, Piece.ofDocument_eq_ofText, ← h.text_eq,
    Outline.ofPieces_map_lower, Outline.lower, Array.toList_map]

theorem lower_byTree (hf : f.policy.ListenerFree) (h : Markup.NamesRecased a b) :
    AsciiCase.lower (f.byTree b) = AsciiCase.lower (f.byTree a) := by
  rw [lower_byTree_eq hf, lower_byTree_eq hf, h.map_lower_ofText]

/-- **Decisions are blind to the letter case of names.** If two texts differ only in the ASCII case
of letters in the names of tags and of their attributes, then a policy without listeners makes the
same of both: they have units of the same kinds at the same bytes, and both ways of filtering write
the same letters up to their case.

*Proof sketch.* Nothing in the rules of markup distinguishes letters by their case but the keywords
of conditional comments, and these belong to no name; so the tokens of both texts stand at the same
places (`Markup.NamesRecased.unitTokens_eq`), and only those of names have other letters. From there
on two runs go side by side, where every lookup is by lowered names. -/
theorem names_case_ignored (f : Filter) (hf : f.policy.ListenerFree) {a b : String}
    (h : Markup.NamesRecased a b) :
    (Markup.unitTokens b).map Markup.kindAndSpan = (Markup.unitTokens a).map Markup.kindAndSpan ∧
      AsciiCase.lower (f.byTree b) = AsciiCase.lower (f.byTree a) ∧
      AsciiCase.lower (f.byPiece b) = AsciiCase.lower (f.byPiece a) :=
  ⟨h.map_kindAndSpan, lower_byTree hf h, lower_byPiece hf h⟩

/-- Lists are allowed whatever the letters of their names, and written with the names of the start
tags. -/
theorem names_case_ignored_list :
    titledLists.policy.ListenerFree ∧
      Markup.NamesRecased "<UL Class=A><LI Title=Tip>x</li></ul>"
        "<ul cLASS=A><li TITLE=Tip>x</LI></UL>" ∧
      titledLists.byPiece "<UL Class=A><LI Title=Tip>x</li></ul>" =
        "<UL Class=A><LI Title=Tip>x</LI></UL>" ∧
      AsciiCase.lower (titledLists.byTree "<ul cLASS=A><li TITLE=Tip>x</LI></UL>") =
        AsciiCase.lower (titledLists.byTree "<UL Class=A><LI Title=Tip>x</li></ul>") ∧
      AsciiCase.lower (titledLists.byPiece "<ul cLASS=A><li TITLE=Tip>x</LI></UL>") =
        AsciiCase.lower (titledLists.byPiece "<UL Class=A><LI Title=Tip>x</li></ul>") := by
  have hrecased : Markup.NamesRecased "<UL Class=A><LI Title=Tip>x</li></ul>"
      "<ul cLASS=A><li TITLE=Tip>x</LI></UL>" := by decide +kernel
  exact ⟨titledLists_listenerFree, hrecased, by decide +kernel,
    (names_case_ignored titledLists titledLists_listenerFree hrecased).2⟩

end Filter

end MarkupFilter
