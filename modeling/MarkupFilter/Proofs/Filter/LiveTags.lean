import MarkupFilter.Proofs.Filter.Parts
import MarkupFilter.Proofs.Filter.Verdicts
import MarkupFilter.Proofs.Policy.Tables

/-!
# Which tags are live in a filtered text

Each part that a filter writes is live, whatever was written before it; so all of a filtered text is
live, and the filter tolerates the tags that are read in it.

## Main results

* `Filter.Writes.live` — what a filter writes is live.
* `Filter.live_byPiece`, `Filter.live_byTree` — texts filtered piece by piece, and as trees.
* `Filter.tolerates_filtered` — the filter tolerates all tags of a filtered text.
-/

set_option autoImplicit false

namespace MarkupFilter

open Reader

namespace Filter

variable {f : Filter}

/-! ## Parts -/

/-- The end tag of a remembered element is live, with the parameters before it. -/
theorem Remembered.live_endTag (hf : f.settings.blockingPrefix = none) {x : OpenedElement}
    (hx : Remembered f x) (g : ObjectGuard) (inPlace : Bool) :
    Live f (f.renderEndTag x.name x.decision (endObject g x.objectKey? inPlace).1) := by
  obtain ⟨settings, heq, hsome⟩ := exists_endObject g x.objectKey? inPlace
  rw [heq]
  exact live_renderEndTag hf hx.name _ _ fun hne => hx.object (hsome hne)

theorem live_renderStrayEndTag (hf : f.settings.blockingPrefix = none) {name : String}
    (hname : IsTagName name.toList) : Live f (f.renderStrayEndTag name) :=
  live_renderEndTag hf hname _ [] fun h => absurd rfl h

/-- **What a filter without listeners writes is live**, since each of its parts is. -/
theorem Writes.live (hf : f.policy.ListenerFree) (hblocking : f.settings.blockingPrefix = none)
    (hescape : f.settings.escapeCommentMarkup = true) {text : String} (h : f.Writes text) :
    Live f text := by
  induction h with
  | nothing => exact .empty
  | append _ _ hs ht => exact hs.append ht
  | text raw => exact .of_inert (inert_renderText raw)
  | comment body => exact .of_inert (inert_renderComment hescape body)
  | conditionalStart hc hcondition d => exact .of_inert (inert_renderConditionalStart hc hcondition d)
  | conditionalEnd => exact .of_inert inert_renderConditionalEnd
  | startTag hc he g parent? neverClosed =>
    obtain ⟨hcondition, hshaped, hpassed, -⟩ := passed_judge hf g hc he parent? neverClosed
    exact live_renderStartTag hblocking hcondition hshaped hpassed
  | endTag hx g inPlace =>
    obtain ⟨e, g', parent?, neverClosed, hc, he, rfl⟩ := hx
    exact (passed_judge hf g' hc he parent? neverClosed).2.2.2.live_endTag hblocking g inPlace
  | strayEndTag hname => exact live_renderStrayEndTag hblocking hname

/-- The text that is filtered piece by piece is live. -/
theorem live_byPiece (hf : f.policy.ListenerFree) (hblocking : f.settings.blockingPrefix = none)
    (hescape : f.settings.escapeCommentMarkup = true) (input : String) :
    Live f (f.byPiece input) :=
  (writes_byPiece hf.hasLocalListeners input).live hf hblocking hescape

/-- The text that is filtered as a tree is live. -/
theorem live_byTree (hf : f.policy.ListenerFree) (hblocking : f.settings.blockingPrefix = none)
    (hescape : f.settings.escapeCommentMarkup = true) (input : String) :
    Live f (f.byTree input) :=
  (writes_byTree hf.hasLocalListeners input).live hf hblocking hescape

/-! ## What is read in a filtered text -/

/-- **Nothing that is rejected comes back to life.** Without listeners and without a prefix for
disabled tags, and as long as markup in comments is escaped, the filter tolerates all tags that are
read in a filtered text, whichever way it was filtered.

*Proof sketch.* A filtered text is written in parts, and each of them spells pieces whose tags are
tolerated (`Writes.live`): texts, comments and markers have no angle brackets, the start
tag of an allowed element has what the rules and the object guard leave of it, and parameters are
written only before the end tag of an object. Pieces in their usual spelling are read again as they
are, whatever follows them (`Spells.tags`). -/
theorem tolerates_filtered (hf : f.policy.ListenerFree)
    (hblocking : f.settings.blockingPrefix = none)
    (hescape : f.settings.escapeCommentMarkup = true) (input : String) :
    f.Tolerates (Markup.tags (f.byTree input)) ∧
      f.Tolerates (Markup.tags (f.byPiece input)) := by
  have htree := (live_byTree hf hblocking hescape input).tolerates
  have hpiece := (live_byPiece hf hblocking hescape input).tolerates
  exact ⟨htree, hpiece⟩

/-- Objects with parameters of which the rules allow the name only. -/
def objects : Filter where
  policy :=
    { elements := ⟨[("object", { name := "object" }),
        ("param", { name := "param", attributes := ["name"] })]⟩
      attributes := ⟨[("name", { name := "name" })]⟩ }
  settings := { withComments := false }

/-- A tag without a rule becomes text, the value of a parameter is forced, and the other settings
are added. -/
theorem tolerates_filtered_object :
    objects.policy.ListenerFree ∧ objects.settings.blockingPrefix = none ∧
      objects.settings.escapeCommentMarkup = true ∧
      objects.byPiece "<i><object><param name=nojava value=0></object>" =
        "&lt;i&gt;<object><param name=nojava value=\"true\">" ++
          String.join (ObjectFrame.missing ⟨0, [.nojava], .internal⟩ |>.map fun (name, value) =>
            renderParam name value) ++ "</object>" ∧
      objects.Tolerates
        (Markup.tags (objects.byPiece "<i><object><param name=nojava value=0></object>")) := by
  have hf : objects.policy.ListenerFree := by
    have helements : objects.policy.elements.Every fun rule => rule.listeners = [] := by
      simp [RuleTable.Every, objects]
    have hattributes : objects.policy.attributes.Every fun rule => rule.listeners = [] := by
      simp [RuleTable.Every, objects]
    exact ⟨fun _ _ hrule => helements.of_find? hrule, fun _ _ hrule => hattributes.of_find? hrule⟩
  have htolerates := tolerates_filtered hf rfl rfl "<i><object><param name=nojava value=0></object>"
  exact ⟨hf, rfl, rfl, by decide +kernel, htolerates.2⟩

end Filter

end MarkupFilter
