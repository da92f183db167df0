import MarkupFilter.Proofs.Filter.Parts
import MarkupFilter.Proofs.Filter.Verdicts

/-!
# Markers

Where something is rejected, a filter leaves a comment if it is asked to. Such a comment carries
names and values of the input, none of which can end it.

## Main definitions

* `IsMarker` — the text is a marker, or nothing.
* `Filter.withMarkers` — the filter, with markers or without.

## Main results

* `IsMarker.read` — a marker is read as one comment, whatever follows it.
* `Filter.exists_marker_renderStartTag` — a start tag is written with a marker before it, or without.
-/

set_option autoImplicit false

namespace MarkupFilter

open Reader

/-- The text is a comment that marks a rejected tag, rejected attributes, or a removed tag; or it is
empty. What such a comment carries has no angle brackets. -/
inductive IsMarker : String → Prop where
  | nothing : IsMarker ""
  | tag : IsMarker "<!-- Not Allowed Tag Filtered -->"
  | attributes {text : String} (h : NoAngles text.toList) :
    IsMarker ("<!-- Not Allowed Attribute Filtered (" ++ text ++ ") -->")
  | removed {text : String} (h : NoAngles text.toList) :
    IsMarker ("<!-- Removed Tag Filtered (" ++ text ++ ") -->")

namespace IsMarker

/-- A marker is a comment that starts with a blank. -/
theorem exists_body {m : String} (h : IsMarker m) : m = "" ∨
    ∃ body, m.toList = (Piece.comment body).write ∧ NoAngles body.toList ∧
      body.toList.head? = some ' ' := by
  have hparts : ∀ start text : String, NoAngles (start ++ text ++ ") ").toList →
      start.toList.head? = some ' ' → ∃ body,
        ("<!--" ++ start ++ text ++ ") -->").toList = (Piece.comment body).write ∧
          NoAngles body.toList ∧ body.toList.head? = some ' ' := by
    intro start text hbody hstart
    refine ⟨start ++ text ++ ") ", by simp [Piece.write], hbody, ?_⟩
    rw [String.toList_append, String.toList_append, List.append_assoc, List.head?_append, hstart]
    rfl
  have hnoAngles : ∀ {start text : String}, NoAngles start.toList → NoAngles text.toList →
      NoAngles (start ++ text ++ ") ").toList := by
    intro start text hstart htext
    simp only [String.toList_append]
    exact (hstart.append htext).append ⟨by decide, by decide⟩
  cases h with
  | nothing => exact .inl rfl
  | tag => exact .inr ⟨" Not Allowed Tag Filtered ", rfl, ⟨by decide, by decide⟩, rfl⟩
  | attributes h =>
    exact .inr (hparts " Not Allowed Attribute Filtered (" _
      (hnoAngles ⟨by decide, by decide⟩ h) rfl)
  | removed h =>
    exact .inr (hparts " Removed Tag Filtered (" _ (hnoAngles ⟨by decide, by decide⟩ h) rfl)

/-- **A marker is read as one comment**, whatever follows it: it is no conditional comment, and
nothing that it carries ends it. -/
theorem read {m : String} (h : IsMarker m) : m = "" ∨
    ∃ body, NoAngles body.toList ∧
      ∀ rest, Piece.ofText (m ++ rest) = .comment body :: Piece.ofText rest := by
  refine h.exists_body.imp_right fun ⟨body, hwrite, hbody, hblank⟩ => ⟨body, hbody, fun rest => ?_⟩
  obtain ⟨p, hp, rfl | ⟨-, condition, -, hcondition⟩ | ⟨-, blanks, -, hclosing⟩⟩ :=
    piece?_comment hbody rest.toList
  · rw [Piece.ofText_eq_pieces, Piece.ofText_eq_pieces, String.toList_append, hwrite]
    exact pieces_of_piece? hp
  · rw [hcondition] at hblank
    cases hblank
  · rw [hclosing] at hblank
    cases hblank

end IsMarker

namespace Filter

/-- The filter with marker comments, or without them. -/
def withMarkers (f : Filter) (on : Bool) : Filter :=
  { f with settings := { f.settings with withComments := on } }

variable (f : Filter)

theorem isMarker_removedMarker (name : String) : IsMarker (f.removedMarker name) := by
  unfold removedMarker marker
  split
  · have htext : "<!-- " ++ ("Removed Tag Filtered (" ++ CharacterReference.escapeAngles name ++ ")")
        ++ " -->" = "<!-- Removed Tag Filtered (" ++ CharacterReference.escapeAngles name ++
          ") -->" := String.toList_inj.1 (by simp)
    rw [htext]
    exact .removed (noAngles_escapeAngles name)
  · exact .nothing

theorem isMarker_attributeMarker {e : Element} (he : e.Shaped) :
    IsMarker (f.attributeMarker e) := by
  unfold attributeMarker marker
  split
  · exact .nothing
  · split
    · generalize hattributes :
        String.join (e.attributes.disabled.map fun a => a.render (some '"')) = text
      have htext : "<!-- " ++ ("Not Allowed Attribute Filtered (" ++ text ++ ")") ++ " -->" =
          "<!-- Not Allowed Attribute Filtered (" ++ text ++ ") -->" :=
        String.toList_inj.1 (by simp)
      rw [htext]
      refine .attributes ?_
      rw [← hattributes, String.toList_join, List.flatMap_map]
      refine .flatMap fun a ha => ?_
      exact noAngles_render (he.attributes a (List.mem_filter.1 ha).1) (.inr (.inl rfl))
    · exact .nothing

theorem isMarker_disabledMarker {e : Element} (he : e.Shaped) : IsMarker (f.disabledMarker e) := by
  unfold disabledMarker
  split
  · unfold marker
    split
    · exact .tag
    · exact .nothing
  · exact f.isMarker_attributeMarker he

/-- Without markers there are none. -/
theorem marker_withMarkers_false (body : String) : (f.withMarkers false).marker body = "" :=
  rfl

theorem attributeMarker_withMarkers_false (e : Element) :
    (f.withMarkers false).attributeMarker e = "" := by
  unfold attributeMarker
  split
  · rfl
  · exact f.marker_withMarkers_false _

theorem disabledMarker_withMarkers_false (e : Element) :
    (f.withMarkers false).disabledMarker e = "" := by
  unfold disabledMarker
  split
  · exact f.marker_withMarkers_false _
  · exact f.attributeMarker_withMarkers_false e

/-- **A start tag is written behind a marker**, where there are markers. Of an element that is no
conditional comment the attributes must be such as are read. -/
theorem exists_marker_renderStartTag {e : Element} (he : e.condition = none → e.Shaped)
    (d : Decision) : ∃ m, IsMarker m ∧
      (f.withMarkers true).renderStartTag e d = m ++ (f.withMarkers false).renderStartTag e d := by
  unfold renderStartTag
  cases hc : e.condition with
  | some condition =>
    dsimp only
    unfold renderConditionalStart
    split
    · exact ⟨"", .nothing, (String.empty_append).symm⟩
    · exact ⟨_, isMarker_removedMarker _ _, (String.append_empty).symm⟩
  | none =>
    cases d with
    | removed => exact ⟨_, isMarker_removedMarker _ e.name, (String.append_empty).symm⟩
    | disabled =>
      refine ⟨_, isMarker_disabledMarker (f.withMarkers true) (he hc), ?_⟩
      dsimp only
      rw [disabledMarker_withMarkers_false, String.empty_append]
      rfl
    | allowed =>
      refine ⟨_, isMarker_attributeMarker (f.withMarkers true) (he hc), ?_⟩
      dsimp only
      rw [attributeMarker_withMarkers_false, String.empty_append]

end Filter

end MarkupFilter
