import MarkupFilter.Proofs.Filter.OpenObjects
import MarkupFilter.Proofs.Filter.Parameters

/-!
# Tags along a row of events

Every event is written as a text by itself. The tags that are read in a filtered text are those that
are read in these texts, one after the other.

## Main definitions

* `Filter.Run` — the events of a text in one of the two orders, and the filtered text.
* `Filter.toldTags` — the tags that are written for a row of events.

## Main results

* `Filter.writes_say` — what is written for an event is one of the parts that a filter writes.
* `Filter.tags_told` — the tags of what is written for a row of events.
-/

set_option autoImplicit false

namespace MarkupFilter

open Event

namespace Filter

variable {f : Filter}

/-- The events of a text in the order of its tree or in that of its pieces, and the filtered
text. -/
inductive Run (f : Filter) (input : String) : List Event → String → Prop where
  | byTree : Run f input (treeEvents input) (f.byTree input)
  | byPiece : Run f input (pieceEvents input) (f.byPiece input)

namespace Run

variable {input text : String} {xs : List Event}

theorem wellRead (h : f.Run input xs text) : Event.WellRead xs := by
  cases h with
  | byTree => exact wellRead_treeEvents input
  | byPiece => exact wellRead_pieceEvents input

theorem eq_told (hp : f.policy.IgnoresPlace) (hf : f.policy.HasLocalListeners)
    (h : f.Run input xs text) : text = f.told {} xs := by
  cases h with
  | byTree => exact byTree_eq_told hp hf input
  | byPiece => exact byPiece_eq_told hp hf input

end Run

/-! ## What is written for an event -/

/-- **What is written for an event** is one of the parts that a filter writes. -/
theorem writes_say (hf : f.policy.HasLocalListeners) {xs before after : List Event} {x : Event}
    (hxs : Event.WellRead xs) (hsplit : xs = before ++ x :: after) :
    f.Writes (f.say (f.after {} before) x) := by
  cases x with
  | node c =>
    have hread : c.WellRead := by
      refine hxs.content c ?_
      rw [hsplit, contents_append, contents_node]
      exact List.mem_append_right _ (List.mem_cons_self ..)
    match c, hread with
    | .fragment, _ => exact .nothing
    | .text raw, _ => exact .text raw
    | .stray raw (.endTag name), hname => exact .strayEndTag hname
    | .stray raw .conditional, _ => exact .conditionalEnd
    | .comment body, _ => exact .comment body
    | .element e, .inl ⟨hc, he⟩ => exact .startTag hc he _ none false
    | .element e, .inr ⟨condition, hc, _, _, hcondition⟩ =>
      have htag := sameTag_judge hf (f.after {} before).guard e none false
      exact .conditionalStart (htag.condition.trans hc) hcondition _
  | ended number =>
    rw [say]
    cases hnode : (f.after {} before).node? number with
    | none => exact .nothing
    | some y =>
      obtain ⟨e, g, he, rfl⟩ := exists_element_of_node? hnode
      obtain ⟨e', he', hwaits, -⟩ := hxs.innermost before after number hsplit
      obtain rfl : e = e' := Content.element.inj (Option.some.inj (he.symm.trans he'))
      have hread : (Content.element e).WellRead := by
        refine hxs.content _ ?_
        rw [hsplit, contents_append]
        exact List.mem_append_left _ (List.mem_of_getElem? he)
      exact .endTag ⟨e, g, none, false, hwaits.1, hread.shaped hwaits.1, rfl⟩ _ true
  | dropped number => exact .nothing

/-! ## What is written for a row of events -/

/-- The tags that are written for a row of events. -/
def toldTags (f : Filter) : Scene → List Event → List ReadTag
  | _, [] => []
  | s, x :: xs => Markup.tags (f.say s x) ++ toldTags f (f.act s x) xs

theorem toldTags_append (s : Scene) (xs ys : List Event) :
    f.toldTags s (xs ++ ys) = f.toldTags s xs ++ f.toldTags (f.after s xs) ys := by
  induction xs generalizing s with
  | nil => rfl
  | cons x xs ih =>
    rw [List.cons_append, toldTags, toldTags, ih, List.append_assoc, after_cons]

/-- The tags of safe texts that follow one another. -/
theorem Safe.tags_append {s t : String} (hs : Safe s) (ht : Safe t) :
    Markup.tags (s ++ t) = Markup.tags s ++ Markup.tags t := by
  obtain ⟨ps, hps, -⟩ := hs
  obtain ⟨qs, hqs, -⟩ := ht
  rw [(hps.append hqs).tags, hps.tags, hqs.tags, List.filterMap_append]

/-- **The tags of what is written for a row of events** are those that are written for each of
them. -/
theorem tags_told (hf : f.policy.ProtectsLinksOnly) (hprotect : f.settings.protectObjects = true)
    (hblocking : f.settings.blockingPrefix = none)
    (hescape : f.settings.escapeCommentMarkup = true) {xs before inside after : List Event}
    (hxs : Event.WellRead xs) (hsplit : xs = before ++ (inside ++ after)) :
    Safe (f.told (f.after {} before) inside) ∧
      Markup.tags (f.told (f.after {} before) inside) =
        f.toldTags (f.after {} before) inside := by
  induction inside generalizing before with
  | nil => exact ⟨.of_inert .empty, Spells.nil.tags⟩
  | cons x inside ih =>
    rw [List.cons_append] at hsplit
    have hsay := (writes_say hf.hasLocalListeners hxs hsplit).safe hf hprotect hblocking hescape
    have hrest : xs = (before ++ [x]) ++ (inside ++ after) := by simpa using hsplit
    obtain ⟨hsafe, htags⟩ := ih hrest
    rw [after_append, after_cons, after_nil] at hsafe htags
    refine ⟨hsay.append hsafe, ?_⟩
    rw [told_cons, hsay.tags_append hsafe, htags, toldTags]

end Filter

end MarkupFilter
