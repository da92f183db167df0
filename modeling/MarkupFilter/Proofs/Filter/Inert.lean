import MarkupFilter.Proofs.Filter.Spelling

/-!
# Texts without tags

Most of what a filter writes spells no tags at all: texts, comments and markers, openers and closers
of conditional comments, and tags that the policy rejects.

## Main definitions

* `Inert` — the text spells pieces that are no tags.

## Main results

* `Filter.inert_renderText`, `Filter.inert_renderComment`, `Filter.inert_marker` — texts, comments
  and markers.
* `Filter.inert_renderStartTag`, `Filter.inert_renderEndTag` — tags that are not allowed.
* `Filter.inert_renderConditionalStart`, `Filter.inert_renderConditionalEnd` — conditional comments.
-/

set_option autoImplicit false

namespace MarkupFilter

open Reader

/-- The text spells pieces, none of which is a tag. -/
def Inert (text : String) : Prop :=
  ∃ ps, Spells ps text ∧ ps.filterMap Piece.tag? = []

namespace Inert

theorem empty : Inert "" :=
  ⟨[], .nil, rfl⟩

theorem append {s t : String} (hs : Inert s) (ht : Inert t) : Inert (s ++ t) := by
  obtain ⟨ps, hps, hnone⟩ := hs
  obtain ⟨qs, hqs, hnone'⟩ := ht
  exact ⟨ps ++ qs, hps.append hqs, by rw [List.filterMap_append, hnone, hnone', List.nil_append]⟩

/-- A piece that is no tag. -/
theorem of_noTag {p : Piece} {text : String} (h : Spells [p] text) (hp : p.tag? = none) :
    Inert text :=
  ⟨[p], h, by rw [List.filterMap_cons_none hp, List.filterMap_nil]⟩

theorem noAngles {text : String} (h : NoAngles text.toList) : Inert text :=
  of_noTag (spells_text h) rfl

end Inert

namespace Filter

variable {f : Filter}

/-! ## Texts, comments and markers -/

theorem inert_renderText (raw : String) : Inert (renderText raw) :=
  .of_noTag (spells_renderText raw) rfl

theorem inert_renderComment (hf : f.settings.escapeCommentMarkup = true) (body : String) :
    Inert (f.renderComment body) :=
  .of_noTag (spells_renderComment hf body) rfl

theorem inert_marker {body : String} (h : NoAngles body.toList) : Inert (f.marker body) := by
  unfold marker
  split
  · have hbody : NoAngles (" " ++ body ++ " ").toList := by
      simp only [String.toList_append]
      exact (NoAngles.append ⟨by decide, by decide⟩ h).append ⟨by decide, by decide⟩
    have htext : "<!-- " ++ body ++ " -->" = "<!--" ++ (" " ++ body ++ " ") ++ "-->" :=
      String.toList_inj.1 (by simp)
    rw [htext]
    exact .of_noTag (spells_comment hbody) rfl
  · exact .empty

theorem inert_removedMarker (name : String) : Inert (f.removedMarker name) := by
  refine inert_marker ?_
  simp only [String.toList_append]
  exact (NoAngles.append ⟨by decide, by decide⟩ (noAngles_escapeAngles name)).append
    ⟨by decide, by decide⟩

theorem inert_attributeMarker {e : Element} (he : e.Shaped) : Inert (f.attributeMarker e) := by
  unfold attributeMarker
  split
  · exact .empty
  · refine inert_marker ?_
    simp only [String.toList_append, String.toList_join, List.flatMap_map]
    refine (NoAngles.append ⟨by decide, by decide⟩ ?_).append ⟨by decide, by decide⟩
    refine .flatMap fun a ha => ?_
    exact noAngles_render (he.attributes a (List.mem_filter.1 ha).1) (.inr (.inl rfl))

theorem inert_disabledMarker {e : Element} (he : e.Shaped) : Inert (f.disabledMarker e) := by
  unfold disabledMarker
  split
  · exact inert_marker ⟨by decide, by decide⟩
  · exact inert_attributeMarker he

/-! ## Tags that are not allowed -/

/-- The start tag of a disabled element is a text. -/
theorem inert_renderDisabledStartTag (hf : f.settings.blockingPrefix = none) {e : Element}
    (he : e.Shaped) : Inert (f.renderDisabledStartTag e) := by
  unfold renderDisabledStartTag
  rw [hf]
  have hend : NoAngles (if e.selfClosed then "/&gt;" else "&gt;").toList := by
    split <;> exact ⟨by decide, by decide⟩
  refine .noAngles ?_
  simp only [String.toList_append]
  exact ((NoAngles.append ⟨by decide, by decide⟩ (noAngles_of_isTagName he.name)).append
    he.noAngles_renderAttributes).append hend

theorem inert_renderStartTag (hf : f.settings.blockingPrefix = none) {e : Element}
    (hc : e.condition = none) (he : e.Shaped) {d : Decision} (hd : d ≠ .allowed) :
    Inert (f.renderStartTag e d) := by
  unfold renderStartTag
  rw [hc]
  cases d with
  | removed => exact inert_removedMarker e.name
  | disabled => exact (inert_disabledMarker he).append (inert_renderDisabledStartTag hf he)
  | allowed => exact absurd rfl hd

theorem inert_renderEndTag (hf : f.settings.blockingPrefix = none) {name : String}
    (hname : IsTagName name.toList) {d : Decision} (hd : d ≠ .allowed) :
    Inert (f.renderEndTag name d []) := by
  unfold renderEndTag
  rw [List.map_nil, String.join_nil, String.empty_append]
  cases d with
  | removed => exact .empty
  | disabled =>
    dsimp only
    rw [hf]
    exact .noAngles (noAngles_disabledEndTag (noAngles_of_isTagName hname))
  | allowed => exact absurd rfl hd

/-! ## Conditional comments -/

theorem inert_renderConditionalStart {e : Element} {condition : String}
    (hc : e.condition = some condition) (hcondition : IsCondition condition.toList)
    (d : Decision) : Inert (f.renderStartTag e d) := by
  unfold renderStartTag
  rw [hc]
  show Inert (f.renderConditionalStart condition d)
  by_cases hd : d = .allowed
  · rw [hd]
    exact .of_noTag (spells_renderConditionalStart hcondition) rfl
  · have hremoved : f.renderConditionalStart condition d = f.removedMarker Policy.conditionalName :=
      if_neg hd
    rw [hremoved]
    exact inert_removedMarker _

theorem inert_renderConditionalEnd : Inert f.renderConditionalEnd := by
  unfold renderConditionalEnd
  split
  · exact .of_noTag (.single (p := .conditionalEnd "<![endif]-->") rfl rfl) rfl
  · exact .empty

end Filter

end MarkupFilter
