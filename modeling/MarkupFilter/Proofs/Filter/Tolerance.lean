import MarkupFilter.Filter.ByPiece
import MarkupFilter.Proofs.Filter.Inert

/-!
# Tolerated tags

A filtered text is read again, by a browser for one. What the policy rejects must not come back to
life then: every start tag that is read has a name and attributes that the rules allow, save what
the object guard writes itself. Here this is shown of each text that a filter can write.

## Main definitions

* `Filter.AllowsTag` — the rules allow a start tag with all its attributes.
* `Filter.Tolerates` — all start tags of a row of tags are allowed or written by the guard.
* `Filter.Live` — a text spells pieces of which the tags are tolerated.
* `Filter.Passed`, `Filter.Remembered` — what is known of an element that is written.

## Main results

* `Filter.Live.append` — live texts can be written one after the other.
* `Filter.live_renderStartTag`, `Filter.live_renderEndTag` — tags are live texts.
-/

set_option autoImplicit false

namespace MarkupFilter

open Reader

/-! ## Tolerated tags -/

namespace Filter

variable (f : Filter)

/-- The rule of an element lists the attribute `name`, and the rule of the attribute lets the
element `owner` have it. -/
def AllowsAttribute (rule : ElementRule) (owner name : String) : Prop :=
  rule.allowsAttribute name = true ∧ ∃ r, f.policy.attributeRule? name = some r ∧
    (r.disabled = false ∨ r.isException owner = true)

/-- The object guard gives the attribute `name` to an element `owner` by itself. -/
def GuardsAttribute (owner name : String) : Prop :=
  f.settings.protectObjects = true ∧
    (AsciiCase.same owner "param" = true ∧ AsciiCase.same name "value" = true ∨
      AsciiCase.same owner "embed" = true ∧
        ∃ s : SafetySetting, AsciiCase.same name s.name = true)

/-- The rule of an element lets its tags be, and all attributes of the start tag are allowed or
given by the object guard. -/
def AllowsTag (tag : WrittenTag) : Prop :=
  ∃ rule, f.policy.elementRule? tag.name = some rule ∧ rule.disabled = false ∧
    rule.removesTag = false ∧ ∀ a ∈ tag.attributes,
      f.AllowsAttribute rule tag.name a.name ∨ f.GuardsAttribute tag.name a.name

/-- The start tag is that of a parameter which the object guard adds to an object. -/
def Injects (tag : WrittenTag) : Prop :=
  f.settings.protectObjects = true ∧ ∃ (s : SafetySetting) (n : Networking),
    tag = ⟨"param", [.ofValue "name" s.name, .ofValue "value" (s.value n)]⟩

/-- The end tag of an object comes next, after parameters that the object guard adds. -/
inductive EndsObject (f : Filter) : List ReadTag → Prop where
  | closing {name : String} {tags : List ReadTag} (h : AsciiCase.same name "object" = true) :
    EndsObject f (.closing name :: tags)
  | opening {tag : WrittenTag} {tags : List ReadTag} (htag : f.Injects tag)
    (htags : EndsObject f tags) : EndsObject f (.opening tag :: tags)

/-- Every start tag in the row is allowed, or is a parameter that the object guard adds before the
end tag of an object. -/
inductive Tolerates (f : Filter) : List ReadTag → Prop where
  | nil : Tolerates f []
  | closing {name : String} {tags : List ReadTag} (htags : Tolerates f tags) :
    Tolerates f (.closing name :: tags)
  | allowed {tag : WrittenTag} {tags : List ReadTag} (htag : f.AllowsTag tag)
    (htags : Tolerates f tags) : Tolerates f (.opening tag :: tags)
  | injected {tag : WrittenTag} {tags : List ReadTag} (htag : f.Injects tag)
    (hends : f.EndsObject tags) (htags : Tolerates f tags) : Tolerates f (.opening tag :: tags)

variable {f}

theorem EndsObject.append {tags : List ReadTag} (h : f.EndsObject tags) (more : List ReadTag) :
    f.EndsObject (tags ++ more) := by
  induction h with
  | closing h => exact .closing h
  | opening htag _ ih => exact .opening htag ih

theorem Tolerates.append {tags more : List ReadTag} (h : f.Tolerates tags)
    (hmore : f.Tolerates more) : f.Tolerates (tags ++ more) := by
  induction h with
  | nil => exact hmore
  | closing _ ih => exact .closing ih
  | allowed htag _ ih => exact .allowed htag ih
  | injected htag hends _ ih => exact .injected htag (hends.append more) ih

/-! ## Live texts -/

/-- The text spells pieces, and the filter tolerates the tags among them. -/
def Live (f : Filter) (text : String) : Prop :=
  ∃ ps, Spells ps text ∧ f.Tolerates (ps.filterMap Piece.tag?)

namespace Live

/-- **The tags of a live text are tolerated** when it is read again. -/
theorem tolerates {text : String} (h : Live f text) : f.Tolerates (Markup.tags text) := by
  obtain ⟨ps, hspells, htags⟩ := h
  rwa [hspells.tags]

theorem empty : Live f "" :=
  ⟨[], .nil, .nil⟩

theorem append {s t : String} (hs : Live f s) (ht : Live f t) : Live f (s ++ t) := by
  obtain ⟨ps, hps, htags⟩ := hs
  obtain ⟨qs, hqs, htags'⟩ := ht
  exact ⟨ps ++ qs, hps.append hqs, by rw [List.filterMap_append]; exact htags.append htags'⟩

/-- A text without tags. -/
theorem of_inert {text : String} (h : Inert text) : Live f text := by
  obtain ⟨ps, hspells, hnone⟩ := h
  exact ⟨ps, hspells, by rw [hnone]; exact .nil⟩

end Live

/-! ## Start tags -/

/-- What the rules and the object guard leave of an element that is allowed. -/
structure Passed (f : Filter) (e : Element) : Prop extends e.Shaped where
  tag : f.AllowsTag ⟨e.name, e.attributes.enabled⟩

/-- The attributes of a tag are tolerated by their names. -/
theorem AllowsTag.congr {tag tag' : WrittenTag} (h : f.AllowsTag tag) (hname : tag'.name = tag.name)
    (hnames : tag'.attributes.map Attribute.name = tag.attributes.map Attribute.name) :
    f.AllowsTag tag' := by
  obtain ⟨rule, hrule, hdisabled, hremoves, hattributes⟩ := h
  refine ⟨rule, hname ▸ hrule, hdisabled, hremoves, fun a ha => ?_⟩
  have hmem : a.name ∈ tag.attributes.map Attribute.name :=
    hnames ▸ List.mem_map_of_mem ha
  obtain ⟨b, hb, heq⟩ := List.mem_map.1 hmem
  rw [hname, ← heq]
  exact hattributes b hb

theorem live_renderLiveStartTag {e : Element} (he : Passed f e) : Live f (renderLiveStartTag e) := by
  obtain ⟨x, hspells, hname, hread, -⟩ := exists_spells_renderLiveStartTag he.toShaped
  have hnames := Attribute.ReadAs.map_name hread
  rw [List.map_map] at hnames
  exact ⟨[.startTag x], hspells, .allowed (he.tag.congr hname hnames) .nil⟩

/-- The start tag of an element is live, whatever the decision on it. -/
theorem live_renderStartTag (hf : f.settings.blockingPrefix = none) {e : Element}
    (hc : e.condition = none) (he : e.Shaped) {d : Decision} (hd : d = .allowed → Passed f e) :
    Live f (f.renderStartTag e d) := by
  by_cases hallowed : d = .allowed
  · unfold renderStartTag
    rw [hc, hallowed]
    exact (Live.of_inert (inert_attributeMarker he)).append (live_renderLiveStartTag (hd hallowed))
  · exact .of_inert (inert_renderStartTag hf hc he hallowed)

/-! ## End tags -/

/-- What is remembered of an element whose start tag was written: only an allowed object has a
frame. -/
structure Remembered (f : Filter) (x : OpenedElement) : Prop where
  name : IsTagName x.name.toList
  object : x.objectKey?.isSome = true → x.decision = .allowed ∧
    AsciiCase.same x.name "object" = true ∧ f.settings.protectObjects = true

/-- An end tag with injected parameters is live if only allowed objects get parameters. -/
theorem live_renderEndTag (hf : f.settings.blockingPrefix = none) {name : String}
    (hname : IsTagName name.toList) (d : Decision) (settings : List (SafetySetting × Networking))
    (hobject : settings ≠ [] → d = .allowed ∧ AsciiCase.same name "object" = true ∧
      f.settings.protectObjects = true) :
    Live f (f.renderEndTag name d (settings.map fun p => (p.1.name, p.1.value p.2))) := by
  by_cases hnil : settings = []
  · subst hnil
    rw [List.map_nil]
    by_cases hd : d = .allowed
    · unfold renderEndTag
      rw [List.map_nil, String.join_nil, String.empty_append, hd]
      exact ⟨_, spells_endTag hname, .closing .nil⟩
    · exact .of_inert (inert_renderEndTag hf hname hd)
  · obtain ⟨rfl, hsame, hprotect⟩ := hobject hnil
    refine ⟨_, (spells_renderParams settings).append (spells_endTag hname), ?_⟩
    have htags : (settings.map fun p => Piece.startTag (p.1.param p.2)).filterMap Piece.tag? =
        settings.map fun p => .opening ⟨"param", (p.1.param p.2).attributes.toList⟩ := by
      rw [List.filterMap_map, ← List.filterMap_eq_map]
      rfl
    have htolerates : ∀ settings : List (SafetySetting × Networking),
        let tags := (settings.map fun p : SafetySetting × Networking =>
          ReadTag.opening ⟨"param", (p.1.param p.2).attributes.toList⟩) ++ [.closing name]
        f.EndsObject tags ∧ f.Tolerates tags := by
      intro settings
      induction settings with
      | nil => exact ⟨.closing hsame, .closing .nil⟩
      | cons p settings ih =>
        have hinjects : f.Injects ⟨"param", (p.1.param p.2).attributes.toList⟩ :=
          ⟨hprotect, p.1, p.2, rfl⟩
        exact ⟨.opening hinjects ih.1, .injected hinjects ih.1 ih.2⟩
    rw [List.filterMap_append, htags]
    exact (htolerates settings).2

end Filter

end MarkupFilter
