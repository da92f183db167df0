import MarkupFilter.Filter.ByTree
import MarkupFilter.Proofs.Filter.Rereading
import MarkupFilter.Proofs.Filter.Walking
import MarkupFilter.Proofs.Markup.OpenStack

/-!
# What end tags close

A tree is built from the start tags as they are written, while a filter by piece opens elements as
its listeners leave them. An end tag means the same to both as long as the listeners keep the names
of elements, up to letter case, and do not make elements close themselves or stay open. A listener
that renames an element takes its end tag away.

## Main definitions

* `Policy.KeepsTag` — the listeners keep what counts for end tags.
* `Filter.Aligned` — the same start tags are waiting for their end tags in both.
* `Filter.SameVerdict` — an end tag does the same to both.

## Main results

* `Filter.Aligned.step`, `Filter.exists_aligned` — the two stay aligned along the pieces.
* `Filter.sameVerdict_of_keepsTag` — every end tag of a text does the same to both.
* `Filter.strengthening_not_sameVerdict` — not so if a listener renames elements.
-/

set_option autoImplicit false

namespace MarkupFilter

open OpenElements (Represents)
open OpenElements.Represents (Closes)

/-! ## Listeners that keep tags -/

/-- The listeners that see the element leave its name, up to letter case, and do not change whether
it closes itself. -/
def Policy.KeepsTag (p : Policy) (e : Element) : Prop :=
  ∀ rule, p.ruleFor? e = some rule → rule.removesTag = false →
    AsciiCase.lower (ElementListener.applyAll rule.listeners e).name = AsciiCase.lower e.name ∧
      (ElementListener.applyAll rule.listeners e).selfClosed = e.selfClosed

namespace Filter

variable {f : Filter}

/-- The decision on an element changes it only as the listeners of its rule do, apart from
attributes. -/
theorem sameTag_decide_decideElement (f : Filter) (e : Element) (parent? : Option String)
    (neverClosed : Bool) :
    (decideElement (f.policy.ruleFor? e) e).2.SameTag (f.decide e parent? neverClosed).2 := by
  simp only [decide]
  split
  · exact ⟨rfl, rfl, rfl, rfl⟩
  · split
    · exact Element.sameTag_setEnabled _ _
    · exact (Element.sameTag_setEnabled _ _).trans (Element.sameTag_mapAttributes _ _)

/-- The judged element counts for end tags as the written one, if the listeners keep its tag. -/
theorem judge_keepsTag {e : Element} (he : f.policy.KeepsTag e) (g : ObjectGuard)
    (parent? : Option String) :
    AsciiCase.lower (f.judge g e parent? false).element.name = AsciiCase.lower e.name ∧
      (f.judge g e parent? false).element.selfClosed = e.selfClosed := by
  have hjudged : (decideElement (f.policy.ruleFor? e) e).2.SameTag
      (f.judge g e parent? false).element :=
    (sameTag_decide_decideElement f e parent? false).trans (sameTag_protect f g _ _)
  rw [hjudged.name, hjudged.selfClosed]
  cases hrule : f.policy.ruleFor? e with
  | none => exact ⟨rfl, rfl⟩
  | some rule =>
    simp only [decideElement, decideEndTag, Element.setEnabled]
    by_cases hremoves : rule.removesTag = true
    · simp [hremoves]
    · rw [Bool.not_eq_true] at hremoves
      have hkeeps := he rule hrule hremoves
      by_cases hdisabled : rule.disabled = true
      · simpa [hremoves, hdisabled] using hkeeps
      · simpa [hremoves, hdisabled] using hkeeps

/-! ## The same open elements -/

/-- The verdict of the filter by piece on a start tag that follows the pieces. -/
def verdictAfter (f : Filter) (pieces : List Piece) (e : Element) : Verdict :=
  let st := f.stateAfter {} pieces
  f.judge st.guard e (st.openElements.current?.map OpenedElement.name) false

/-- Among the pieces is a start tag that becomes the node `number` of the tree, and `x` is what the
filter remembers of it. -/
def Opens (f : Filter) (pieces : List Piece) (number : Nat) (x : OpenedElement) : Prop :=
  ∃ before e after, pieces = before ++ .startTag e :: after ∧
    (Outline.ofPieces before).nodes.size = number ∧ x = (f.verdictAfter before e).opened

theorem Opens.append {pieces : List Piece} {number : Nat} {x : OpenedElement}
    (h : f.Opens pieces number x) (p : Piece) : f.Opens (pieces ++ [p]) number x := by
  obtain ⟨before, e, after, rfl, hnumber, hx⟩ := h
  exact ⟨before, e, after ++ [p], by simp, hnumber, hx⟩

/-- After the pieces the same start tags are waiting for their end tags in the tree and in the
filter, and the same of them are overdue: an entry holds the number of a node and what the filter
remembers of its start tag. -/
structure Aligned (f : Filter) (pieces : List Piece)
    (es : List (OpenEntry (Nat × OpenedElement))) : Prop where
  tree : (Outline.ofPieces pieces).openElements.Represents (es.map (OpenEntry.map Prod.fst))
  filter : (f.stateAfter {} pieces).openElements.Represents (es.map (OpenEntry.map Prod.snd))
  opens : ∀ x ∈ es, f.Opens pieces x.item.1 x.item.2
  nextNumber : (Outline.ofPieces pieces).openElements.nextNumber =
    (f.stateAfter {} pieces).openElements.nextNumber

/-- An end tag of the given name does the same in the tree and in the filter after the pieces: it
closes nothing, or it closes the same start tag, in its place or across others. -/
inductive SameVerdict (f : Filter) (pieces : List Piece) (name : String) : Prop where
  | stray {es : List (OpenEntry (Nat × OpenedElement))} (haligned : f.Aligned pieces es)
      (htree : (Outline.ofPieces pieces).openElements.close? name = none)
      (hfilter : (f.stateAfter {} pieces).openElements.close? name = none)
  | closes {inner outer : List (OpenEntry (Nat × OpenedElement))}
      {x : OpenEntry (Nat × OpenedElement)} {c : Closure Nat} {c' : Closure OpenedElement}
      (haligned : f.Aligned pieces (inner ++ x :: outer))
      (htree : (Outline.ofPieces pieces).openElements.close? name = some c)
      (hfilter : (f.stateAfter {} pieces).openElements.close? name = some c')
      (hcloses : Closes (Outline.ofPieces pieces).openElements c
        (inner.map (OpenEntry.map Prod.fst)) (x.map Prod.fst) (outer.map (OpenEntry.map Prod.fst)))
      (hcloses' : Closes (f.stateAfter {} pieces).openElements c'
        (inner.map (OpenEntry.map Prod.snd)) (x.map Prod.snd) (outer.map (OpenEntry.map Prod.snd)))

namespace Aligned

variable {pieces : List Piece} {es : List (OpenEntry (Nat × OpenedElement))}

theorem empty (f : Filter) : f.Aligned [] [] :=
  ⟨.empty, .empty, by simp, rfl⟩

/-- If the same is open, every end tag does the same. -/
theorem sameVerdict (h : f.Aligned pieces es) (name : String) : f.SameVerdict pieces name := by
  rcases h.tree.close?_both h.filter name with
    ⟨hnone, hnone'⟩ | ⟨inner, x, outer, c, c', rfl, hc, hc', hcloses, hcloses'⟩
  · exact .stray h hnone hnone'
  · exact .closes h hc hc' hcloses hcloses'

theorem ofPieces_append (pieces : List Piece) (p : Piece) :
    Outline.ofPieces (pieces ++ [p]) = (Outline.ofPieces pieces).add p := by
  rw [Outline.ofPieces, List.foldl_append]
  rfl

theorem stateAfter_singleton (f : Filter) (pieces : List Piece) (p : Piece) :
    f.stateAfter {} (pieces ++ [p]) = (f.step (f.stateAfter {} pieces) p).2 :=
  stateAfter_append {} pieces [p]

/-- A piece that opens and closes nothing. -/
theorem leaf (h : f.Aligned pieces es) {p : Piece}
    (htree : ((Outline.ofPieces pieces).add p).openElements = (Outline.ofPieces pieces).openElements)
    (hfilter : (f.step (f.stateAfter {} pieces) p).2.openElements =
      (f.stateAfter {} pieces).openElements) : f.Aligned (pieces ++ [p]) es := by
  refine ⟨?_, ?_, fun x hx => (h.opens x hx).append p, ?_⟩
  · rw [ofPieces_append, htree]
    exact h.tree
  · rw [stateAfter_singleton, hfilter]
    exact h.filter
  · rw [ofPieces_append, stateAfter_singleton, htree, hfilter]
    exact h.nextNumber

/-- A start tag is opened by both or by none. -/
theorem startTag (h : f.Aligned pieces es) {e : Element} (he : f.policy.KeepsTag e) :
    ∃ es', f.Aligned (pieces ++ [.startTag e]) es' := by
  obtain ⟨hname, hself⟩ := judge_keepsTag he (f.stateAfter {} pieces).guard
    ((f.stateAfter {} pieces).openElements.current?.map OpenedElement.name)
  have htree := Outline.openElements_startTag (Outline.ofPieces pieces) e
  have hfilter : (f.step (f.stateAfter {} pieces) (.startTag e)).2.openElements =
      if e.selfClosed then (f.stateAfter {} pieces).openElements
      else (f.stateAfter {} pieces).openElements.push (f.verdictAfter pieces e).element.name
        (f.verdictAfter pieces e).opened := by
    rw [← hself]
    rfl
  by_cases hselfClosed : e.selfClosed = true
  · rw [if_pos hselfClosed] at htree hfilter
    exact ⟨es, h.leaf htree hfilter⟩
  · rw [if_neg hselfClosed] at htree hfilter
    have hpush := h.filter.push (f.verdictAfter pieces e).element.name
      (f.verdictAfter pieces e).opened
    rw [← hfilter, ← h.nextNumber,
      show AsciiCase.lower (f.verdictAfter pieces e).element.name = _ from hname] at hpush
    refine ⟨⟨(Outline.ofPieces pieces).openElements.nextNumber, AsciiCase.lower e.name, false,
      (Outline.ofPieces pieces).nodes.size, (f.verdictAfter pieces e).opened⟩ :: es, ?_, ?_, ?_, ?_⟩
    · rw [ofPieces_append, htree]
      exact h.tree.push e.name _
    · rw [stateAfter_singleton]
      exact hpush
    · intro x hx
      rcases List.mem_cons.1 hx with rfl | hx
      · exact ⟨pieces, e, [], rfl, rfl, rfl⟩
      · exact (h.opens x hx).append _
    · rw [ofPieces_append, stateAfter_singleton, htree, hfilter]
      exact congrArg (· + 1) h.nextNumber

/-- An end tag does the same to both. -/
theorem endTag (h : f.Aligned pieces es) (name raw : String) :
    ∃ es', f.Aligned (pieces ++ [.endTag name raw]) es' := by
  cases h.sameVerdict name with
  | stray haligned htree hfilter =>
    refine ⟨_, haligned.leaf ?_ ?_⟩
    · rw [Outline.add_endTag_of_none raw htree]
      rfl
    · rw [step, stepEndTag, hfilter]
  | @closes inner outer x c c' haligned htree hfilter hcloses hcloses' =>
    have hopen := Outline.openElements_close (Outline.ofPieces pieces) c
    have hstate : (f.step (f.stateAfter {} pieces) (.endTag name raw)).2.openElements =
        c'.remaining := by
      rw [step, stepEndTag, hfilter]
      dsimp only
      split <;> rfl
    refine ⟨inner.map OpenEntry.delay ++ outer, ?_, ?_, fun y hy => ?_, ?_⟩
    · rw [ofPieces_append, Outline.add_endTag_of_some raw htree, hopen, List.map_append,
        OpenEntry.map_map_delay]
      exact hcloses.remaining
    · rw [stateAfter_singleton, hstate, List.map_append, OpenEntry.map_map_delay]
      exact hcloses'.remaining
    · have hold : ∃ z ∈ inner ++ x :: outer, z.item = y.item := by
        rcases List.mem_append.1 hy with hy | hy
        · obtain ⟨z, hz, rfl⟩ := List.mem_map.1 hy
          exact ⟨z, List.mem_append_left _ hz, rfl⟩
        · exact ⟨y, List.mem_append_right _ (List.mem_cons_of_mem _ hy), rfl⟩
      obtain ⟨z, hz, hitem⟩ := hold
      rw [← hitem]
      exact (haligned.opens z hz).append _
    · rw [ofPieces_append, stateAfter_singleton, Outline.add_endTag_of_some raw htree, hopen,
        hstate, hcloses.nextNumber, hcloses'.nextNumber]
      exact haligned.nextNumber

/-- One more piece. -/
theorem step (h : f.Aligned pieces es) {p : Piece}
    (hp : ∀ e, p = .startTag e → f.policy.KeepsTag e) : ∃ es', f.Aligned (pieces ++ [p]) es' := by
  cases p with
  | startTag e => exact h.startTag (hp e rfl)
  | endTag name raw => exact h.endTag name raw
  | _ => exact ⟨es, h.leaf rfl rfl⟩

end Aligned

/-- Along pieces of which the listeners keep the tags, the same is open in the tree and in the
filter. The induction adds one piece at the end. -/
theorem exists_aligned {pieces : List Piece}
    (hf : ∀ e, .startTag e ∈ pieces → f.policy.KeepsTag e) : ∃ es, f.Aligned pieces es := by
  induction pieces using List.reverseRecOn with
  | nil => exact ⟨[], .empty f⟩
  | append_singleton pieces p ih =>
    obtain ⟨es, h⟩ := ih fun e he => hf e (List.mem_append_left _ he)
    exact h.step fun e he => hf e (by simp [he])

/-- **Every end tag does the same in the tree of a text and in the filter by piece**, if the
listeners of the policy keep the tags of the text. They may change attributes, and the letter case
of names.

*Proof sketch.* Whatever is open in the tree is open in the filter, in the same order, under the
same name in small letters, and overdue there if it is overdue here (`Aligned`). Every piece keeps
this (`Aligned.step`), since an end tag is resolved by nothing else. -/
theorem sameVerdict_of_keepsTag (f : Filter) (input : String)
    (hf : ∀ e, .startTag e ∈ Piece.ofDocument input → f.policy.KeepsTag e)
    (before after : List Piece) (name raw : String)
    (hinput : Piece.ofDocument input = before ++ .endTag name raw :: after) :
    f.SameVerdict before name := by
  rw [hinput] at hf
  obtain ⟨es, h⟩ := exists_aligned (f := f) fun e he => hf e (List.mem_append_left _ he)
  exact h.sameVerdict name

/-- A filter of which the listener marks `b` elements and spells their names in capitals. -/
def marking : Filter where
  policy := { elements := ⟨[("b", { name := "b", listeners := [
    { onElement := fun e => (e.rename "B").mapAttributes (·.set "data-seen" "1") }] })]⟩ }

/-- The end tag `</i>` comes after the end of the element around. -/
theorem marking_sameVerdict :
    Piece.ofDocument "<b><i></b></i>" =
        [.startTag { name := "b" }, .startTag { name := "i" }, .endTag "b" "</b>"] ++
          .endTag "i" "</i>" :: [] ∧
      (∀ e, .startTag e ∈ Piece.ofDocument "<b><i></b></i>" → marking.policy.KeepsTag e) ∧
      marking.SameVerdict
        [.startTag { name := "b" }, .startTag { name := "i" }, .endTag "b" "</b>"] "i" := by
  have hread : Piece.ofDocument "<b><i></b></i>" =
      [.startTag { name := "b" }, .startTag { name := "i" }, .endTag "b" "</b>"] ++
        .endTag "i" "</i>" :: [] := by
    decide +kernel
  have hkeeps : ∀ e, .startTag e ∈ Piece.ofDocument "<b><i></b></i>" →
      marking.policy.KeepsTag e := by
    rw [hread]
    intro e he
    simp only [List.cons_append, List.nil_append, List.mem_cons, Piece.startTag.injEq, reduceCtorEq,
      List.not_mem_nil, or_false] at he
    rcases he with rfl | rfl
    · intro rule hrule _
      cases hrule
      exact ⟨by decide, rfl⟩
    · have hnone : (marking.policy.ruleFor? { name := "i" }).isSome = false := by decide
      intro rule hrule
      rw [hrule] at hnone
      cases hnone
  exact ⟨hread, hkeeps, sameVerdict_of_keepsTag marking _ hkeeps _ _ _ _ hread⟩

/-- A filter of which the listener makes `b` elements `strong` ones. -/
def strengthening : Filter where
  policy := { elements := ⟨[("b", { name := "b", listeners := [
    { onElement := fun e => e.rename "strong" }] }), ("strong", { name := "strong" })]⟩ }

/-- The end tag of an element that the listener has renamed: in the tree it closes the element, and
by piece it is stray. -/
theorem strengthening_not_sameVerdict :
    Piece.ofDocument "<b>x</b>" =
        [.startTag { name := "b" }, .text "x"] ++ .endTag "b" "</b>" :: [] ∧
      ¬ strengthening.SameVerdict [.startTag { name := "b" }, .text "x"] "b" ∧
      strengthening.byTree "<b>x</b>" = "<strong>x</strong>" ∧
      strengthening.byPiece "<b>x</b>" = "<strong>x</b>" := by
  refine ⟨by decide +kernel, fun h => ?_, by decide +kernel, by decide +kernel⟩
  have htree : ((Outline.ofPieces [.startTag { name := "b" }, .text "x"]).openElements.close?
      "b").isSome = true := by decide
  have hfilter : (strengthening.stateAfter {}
      [.startTag { name := "b" }, .text "x"]).openElements.close? "b" = none := by decide
  cases h with
  | stray _ hstray => simp [hstray] at htree
  | closes _ _ hcloses => simp [hfilter] at hcloses

end Filter

end MarkupFilter
