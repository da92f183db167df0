import MarkupFilter.Proofs.Filter.GivenSettings
import MarkupFilter.Proofs.Filter.ToldTags

/-!
# Tags of parameters

What a parameter in a filtered text gives can be told from its tag, and what was read there from what
it gives: parameters that name a setting are written with the value that the guard forces on them, and
no other tags give the setting.

## Main definitions

* `WrittenTag.Gives` — a tag is that of a parameter with a name and a value.
* `Element.EndsInName` — the written name of a parameter takes a slash when it is read again.
* `Filter.TakenParam` — the verdict on a parameter.

## Main results

* `Filter.tags_sayStart`, `Filter.tags_renderEndTag` — the tags that are written for an element.
* `Filter.TakesParams.gives_of_setting?` — a parameter that names a setting gives it a safe value.
* `Filter.TakesParams.setting?_of_gives` — a tag that gives a setting is that of such a parameter.
-/

set_option autoImplicit false

namespace MarkupFilter

open Event

/-! ## Tags of parameters -/

/-- The tag is that of a parameter, and it gives the setting its value. -/
structure WrittenTag.Gives (tag : WrittenTag) (s : SafetySetting) (n : Networking) : Prop where
  param : AsciiCase.same tag.name "param" = true
  name : ∃ a ∈ tag.attributes, AsciiCase.same a.name "name" = true ∧
    a.value.bind SafetySetting.ofName? = some s
  value : ∃ a ∈ tag.attributes, AsciiCase.same a.name "value" = true ∧ a.value = some (s.value n)

theorem SafetySetting.gives_tag (s : SafetySetting) (n : Networking) : (s.tag n).Gives s n := by
  have hself : SafetySetting.ofName? s.name = some s := by
    cases s <;> decide
  have hnames : AsciiCase.same "param" "param" = true ∧ AsciiCase.same "name" "name" = true ∧
      AsciiCase.same "value" "value" = true := by
    decide
  exact ⟨hnames.1, ⟨.ofValue "name" s.name, List.mem_cons_self .., hnames.2.1, hself⟩,
    ⟨.ofValue "value" (s.value n), List.mem_cons_of_mem _ (List.mem_cons_self ..), hnames.2.2,
      rfl⟩⟩

/-- A parameter that the guard adds gives no other setting, and no other value. -/
theorem SafetySetting.eq_of_gives_tag {s t : SafetySetting} {n m : Networking}
    (h : (s.tag n).Gives t m) : t = s ∧ s.value n = t.value m := by
  have hself : SafetySetting.ofName? s.name = some s := by
    cases s <;> decide
  have hnames : ¬ AsciiCase.same "name" "value" = true ∧ ¬ AsciiCase.same "value" "name" = true := by
    decide
  constructor
  · obtain ⟨a, ha, hname, hs⟩ := h.name
    rcases List.mem_cons.1 ha with rfl | ha
    · exact Option.some.inj (hs.symm.trans hself)
    · rw [List.mem_singleton.1 ha] at hname
      exact absurd hname hnames.2
  · obtain ⟨a, ha, hvalue, hm⟩ := h.value
    rcases List.mem_cons.1 ha with rfl | ha
    · exact absurd hvalue hnames.1
    · rw [List.mem_singleton.1 ha] at hm
      exact Option.some.inj hm

/-- Only the value of the networking setting depends on how far the network may be used. -/
theorem SafetySetting.networking_inj {n m : Networking}
    (h : SafetySetting.allowNetworking.value n = SafetySetting.allowNetworking.value m) : n = m := by
  revert h
  cases n <;> cases m <;> decide

/-- The written start tag ends in the name of the parameter, without quotes, and a slash, which
belongs to the name when the tag is read again. -/
def Element.EndsInName (x : Element) : Prop :=
  ∃ a, x.asWritten.EndsBareIn a ∧ a.key = "name"

namespace Filter

variable {f : Filter}

/-! ## Tags of elements -/

/-- The tag of an allowed element. -/
theorem tags_sayStart {v : Verdict} (hshaped : v.element.Shaped)
    (hc : v.element.condition = none) (hd : v.decision = .allowed) :
    ∃ bs, Markup.tags (f.sayStart v) = [.opening ⟨v.element.name, bs⟩] ∧ Reread v.element bs ∧
      ∀ a ∈ v.element.asWritten.attributes.toList, ¬ v.element.asWritten.EndsBareIn a → a ∈ bs := by
  obtain ⟨x, hspells, hname, hread, hkept⟩ := exists_spells_renderLiveStartTag hshaped
  obtain ⟨ps, hps, hnone⟩ := inert_attributeMarker (f := f) hshaped
  refine ⟨x.attributes.toList, ?_, hread, hkept⟩
  have htext : f.sayStart v = f.attributeMarker v.element ++ renderLiveStartTag v.element := by
    unfold sayStart renderStartTag
    rw [hc, hd]
  rw [htext, (hps.append hspells).tags, List.filterMap_append, hnone, ← hname]
  rfl

/-- The tags of an end tag: those of the parameters before it, and its own if it is allowed. -/
theorem tags_renderEndTag (hblocking : f.settings.blockingPrefix = none) {name : String}
    (hname : IsTagName name.toList) (d : Decision) (settings : List (SafetySetting × Networking)) :
    Markup.tags (f.renderEndTag name d (settings.map fun p => (p.1.name, p.1.value p.2))) =
      settings.map (fun p => .opening (p.1.tag p.2)) ++
        if d = .allowed then [.closing name] else [] := by
  obtain ⟨ps, hspells, htags⟩ := exists_spells_renderEndTag hblocking hname d settings
  rw [hspells.tags, htags]

/-- A tag before the end tag of an element is that of a parameter that its frame is missing. -/
theorem exists_of_mem_sayEnd (hblocking : f.settings.blockingPrefix = none) {x : OpenedElement}
    (hname : IsTagName x.name.toList) (g : ObjectGuard) {tag : WrittenTag}
    (htag : .opening tag ∈ Markup.tags (f.sayEnd g x)) :
    ∃ key ∈ g.openKeys, x.objectKey? = some key ∧
      ∃ t : SafetySetting, tag = t.tag (g.networkingIn key) := by
  have hend : ∀ {params : List (String × String)} {settings : List (SafetySetting × Networking)},
      params = settings.map (fun p => (p.1.name, p.1.value p.2)) →
      .opening tag ∈ Markup.tags (f.renderEndTag x.name x.decision params) →
        ∃ p ∈ settings, tag = p.1.tag p.2 := by
    rintro params settings rfl htag
    rw [tags_renderEndTag hblocking hname, List.mem_append] at htag
    rcases htag with hmem | hmem
    · obtain ⟨p, hp, heq⟩ := List.mem_map.1 hmem
      exact ⟨p, hp, (ReadTag.opening.inj heq).symm⟩
    · split at hmem
      · cases List.mem_singleton.1 hmem
      · exact absurd hmem List.not_mem_nil
  rw [sayEnd] at htag
  cases hkey : x.objectKey? with
  | none =>
    rw [hkey] at htag
    obtain ⟨p, hp, -⟩ := hend (List.map_nil).symm htag
    exact absurd hp List.not_mem_nil
  | some key =>
    rw [hkey, endObject, ObjectGuard.close] at htag
    split at htag
    · next hopen =>
      obtain ⟨p, hp, htag⟩ := hend (missing_eq (g.frame key)) htag
      obtain ⟨t, -, rfl⟩ := List.mem_map.1 hp
      exact ⟨key, List.contains_iff_mem.1 hopen, rfl, t, htag⟩
    · obtain ⟨p, hp, -⟩ := hend (List.map_nil).symm htag
      exact absurd hp List.not_mem_nil

/-! ## Parameters -/

/-- The parameter was allowed, its name is enabled, and what it names has got a safe value. -/
structure TakenParam (v : Verdict) (setting? : Option SafetySetting) : Prop where
  decision : v.decision = .allowed
  setting : settingOf? v.element.attributes = setting?
  name : ∀ a, v.element.attributes.get? "name" = some a → a.key = "name" ∧ a.enabled = true
  contains : ∀ t, setting? = some t → v.element.attributes.contains "value" = true
  value : ∀ t, setting? = some t → ∀ a ∈ v.element.attributes.toList,
    a.key = AsciiCase.lower "value" → a.Holds (t.value v.guard.networking) ∧ a.enabled = true

/-- The verdict on a parameter. -/
theorem TakesParams.takenParam (hf : f.TakesParams) (g : ObjectGuard) {e : Element}
    (hread : (Content.element e).WellRead) (hparam : e.isNamed "param" = true) :
    TakenParam (f.judge g e none false) e.setting? := by
  obtain ⟨enables, x, hdecide, hname, hattributes, henables⟩ :=
    hf.decide_param (hread.condition hparam (by decide)) hparam
  have hnamed : x.isNamed "param" = true := by
    rw [Element.isNamed, hname]
    exact hparam
  have hsetting : settingOf? (f.protect g x .allowed).2.2.attributes = e.setting? := by
    rw [protect_param hf.protect g hnamed, settingOf?_param, Element.setting?, if_pos hparam,
      settingOf?, settingOf?, hattributes, value?_setEnabled]
  have hforced : ∀ t, e.setting? = some t → _ := fun t ht =>
    forced_protect hf.protect g hnamed (hsetting.trans ht)
  have hget : (f.protect g x .allowed).2.2.attributes.get? "name" = x.attributes.get? "name" := by
    rw [protect_param hf.protect g hnamed, param_eq]
    split
    · exact Attributes.get?_force_of_ne (by decide) _ _
    · rfl
  have hjudge : f.judge g e none false = ⟨.allowed, (f.protect g x .allowed).2.2,
      (f.protect g x .allowed).1, (f.protect g x .allowed).2.1⟩ := by
    simp only [judge, hdecide]
  rw [hjudge]
  refine ⟨rfl, hsetting, fun a ha => ?_, fun t ht => (hforced t ht).1, fun t ht => (hforced t ht).2⟩
  dsimp only at ha
  rw [hget, hattributes, Attributes.get?_map fun a => a.key_setEnabled _] at ha
  obtain ⟨b, hb, rfl⟩ := Option.map_eq_some_iff.1 ha
  have hkey : b.key = "name" := by
    have hfound := List.find?_some hb
    rw [beq_iff_eq] at hfound
    rw [hfound]
    decide
  exact ⟨hkey, henables b hkey⟩

/-- **A parameter that names a setting gives it a safe value**, unless the slash of its tag makes its
name another one. -/
theorem TakesParams.gives_of_setting? (hf : f.TakesParams) (g : ObjectGuard) {e : Element}
    (hread : (Content.element e).WellRead) {t : SafetySetting} (ht : e.setting? = some t)
    (hends : ¬ (f.judge g e none false).element.EndsInName) :
    ∃ tag, .opening tag ∈ Markup.tags (f.sayStart (f.judge g e none false)) ∧
      tag.Gives t (f.judge g e none false).guard.networking := by
  have hparam : e.isNamed "param" = true := by
    rw [Element.setting?] at ht
    split at ht
    · assumption
    · cases ht
  have hc := hread.condition hparam (by decide)
  have htaken := hf.takenParam g hread hparam
  have hshaped := shaped_judge hf.links g (hread.shaped hc) none false
  have htag := sameTag_judge hf.hasLocalListeners g e none false
  obtain ⟨bs, htags, hreread, hkept⟩ :=
    tags_sayStart (f := f) hshaped (htag.condition.trans hc) htaken.decision
  refine ⟨⟨_, bs⟩, htags ▸ List.mem_singleton.2 rfl, ?_, ?_, ?_⟩
  · rw [htag.name]
    exact hparam
  · -- the attribute that names the setting is written, and it is read again as it is
    have hsetting := htaken.setting.trans ht
    rw [settingOf?_eq] at hsetting
    obtain ⟨a, hget, hvalue⟩ := Option.bind_eq_some_iff.1 hsetting
    obtain ⟨hkey, henabled⟩ := htaken.name a hget
    have ha := List.mem_of_find?_eq_some hget
    have hwritten : a.asWritten ∈ (f.judge g e none false).element.asWritten.attributes.toList :=
      List.mem_map_of_mem (List.mem_filter.2 ⟨ha, henabled⟩)
    refine ⟨a.asWritten, hkept _ hwritten fun hbare => hends ⟨_, hbare, ?_⟩, ?_, ?_⟩
    · rw [Attribute.key_asWritten, hkey]
    · rw [Attribute.name_asWritten, AsciiCase.same_iff, ← a.key_eq, hkey]
      decide
    · obtain ⟨value, hsome, hname⟩ := Option.bind_eq_some_iff.1 hvalue
      rw [(hshaped.attributes a ha).value_asWritten, hsome, Option.map_some, Option.bind_some,
        SafetySetting.ofName?_escapeAngles, hname]
  · obtain ⟨b, hb, hname⟩ := hreread.exists_value (htaken.contains t ht)
      fun a ha hkey => (htaken.value t ht a ha hkey).2
    exact ⟨b, hb, hname, hreread.value hshaped (htaken.value t ht) hb hname⟩

/-- A tag that gives a setting is that of a parameter that names it, with the value that is forced
on it. -/
theorem TakesParams.setting?_of_gives (hf : f.TakesParams) (g : ObjectGuard) {e : Element}
    (hread : (Content.element e).WellRead) {t : SafetySetting} {n : Networking} {tag : WrittenTag}
    (htag : .opening tag ∈ Markup.tags (f.sayStart (f.judge g e none false)))
    (hgives : tag.Gives t n) :
    e.setting? = some t ∧ t.value (f.judge g e none false).guard.networking = t.value n := by
  have hsame := sameTag_judge hf.hasLocalListeners g e none false
  have hinert : Inert (f.sayStart (f.judge g e none false)) → False := by
    rintro ⟨ps, hspells, hnone⟩
    rw [hspells.tags, hnone] at htag
    exact List.not_mem_nil htag
  have hc : e.condition = none := by
    rcases hread with ⟨hc, -⟩ | ⟨condition, hc, -, -, hcondition⟩
    · exact hc
    · exact (hinert (inert_renderConditionalStart (hsame.condition.trans hc) hcondition _)).elim
  have hshaped := shaped_judge hf.links g (hread.shaped hc) none false
  have hcondition := hsame.condition.trans hc
  have hd : (f.judge g e none false).decision = .allowed := by
    by_contra hd
    exact hinert (inert_renderStartTag hf.blocking hcondition hshaped hd)
  obtain ⟨bs, htags, hreread, -⟩ := tags_sayStart (f := f) hshaped hcondition hd
  rw [htags, List.mem_singleton] at htag
  obtain rfl := ReadTag.opening.inj htag
  have hparam : e.isNamed "param" = true := by
    have hparam := hgives.param
    rw [hsame.name] at hparam
    exact hparam
  have htaken := hf.takenParam g hread hparam
  obtain ⟨a, ha, hname, hsetting⟩ := hgives.name
  have ht : e.setting? = some t :=
    htaken.setting.symm.trans (hreread.settingOf? hshaped ha hname hsetting)
  obtain ⟨b, hb, hvalue, hn⟩ := hgives.value
  have hforced := hreread.value hshaped (htaken.value t ht) hb hvalue
  exact ⟨ht, Option.some.inj (hforced.symm.trans hn)⟩

end Filter

end MarkupFilter
