import MarkupFilter.Filter.ByPiece
import MarkupFilter.Proofs.Filter.Walking
import MarkupFilter.Proofs.Markup.OpenStack
import MarkupFilter.Proofs.Markup.Pieces
import MarkupFilter.Proofs.Markup.Shape
import MarkupFilter.Proofs.Policy.Tables

/-!
# Well nested texts

A text is well nested if every end tag that closes an element closes one that is not overdue, and no
element is left open. On such a text it does not matter for any policy whether it is filtered by
piece or by tree: the innermost open element is the one around a tag in the finished tree, and every
element that waits gets its end tag.

## Main definitions

* `Markup.wellNested` — the text is well nested.
* `Filter.Walked` — the progress through an outline of which some elements are still open.

## Main results

* `Filter.byTree_eq_byPiece_of_wellNested` — the two ways of filtering agree on well nested texts.
-/

set_option autoImplicit false

namespace MarkupFilter

open OpenElements (Represents)

/-! ## Well nested texts -/

namespace Outline

/-- The piece is no end tag of an overdue element. -/
def closesInTime (o : Outline) : Piece → Bool
  | .endTag name _ => (o.openElements.close? name).all fun c => !c.overdue
  | _ => true

/-- None of the pieces closes an overdue element, and none of the elements stays open. -/
def wellNestedFrom (o : Outline) : List Piece → Bool
  | [] => o.openElements.size == 0
  | p :: pieces => o.closesInTime p && (o.add p).wellNestedFrom pieces

end Outline

/-- No end tag of the text closes an element across another one, and all elements that wait for
their end tag get it. End tags that close nothing may occur. -/
def Markup.wellNested (input : String) : Bool :=
  Outline.wellNestedFrom {} (Piece.ofDocument input)

namespace Outline

/-- An overdue element stays overdue until it is closed, so nothing that follows is well nested. -/
theorem wellNestedFrom_of_overdue {o : Outline} {es : List (OpenEntry Nat)}
    (h : o.openElements.Represents es) (hover : ∃ e ∈ es, e.overdue = true) (pieces : List Piece) :
    o.wellNestedFrom pieces = false := by
  induction pieces generalizing o es with
  | nil =>
    rw [wellNestedFrom, beq_eq_false_iff_ne]
    intro hsize
    obtain ⟨e, he, -⟩ := hover
    rw [h.eq_nil_of_size hsize] at he
    cases he
  | cons p pieces ih =>
    rw [wellNestedFrom, Bool.and_eq_false_iff]
    cases p with
    | startTag e =>
      right
      have hopen := openElements_startTag o e
      by_cases hself : e.selfClosed = true
      · rw [if_pos hself] at hopen
        exact ih (hopen ▸ h) hover
      · rw [if_neg hself] at hopen
        obtain ⟨x, hx, hoverdue⟩ := hover
        exact ih (hopen ▸ h.push e.name o.nodes.size) ⟨x, List.mem_cons_of_mem _ hx, hoverdue⟩
    | endTag name raw =>
      rcases h.close?_cases name with hnone | ⟨before, e, after, c, rfl, -, -, hc, hcloses⟩
      · rw [add_endTag_of_none raw hnone]
        exact .inr (ih h hover)
      · rw [closesInTime, hc, Option.all_some, hcloses.overdue]
        cases he : e.overdue with
        | true => exact .inl rfl
        | false =>
          right
          have hopen := openElements_close o c
          rw [add_endTag_of_some raw hc]
          refine ih (hopen ▸ hcloses.remaining) ?_
          -- the overdue element is not the one that is closed
          obtain ⟨x, hx, hoverdue⟩ := hover
          rcases List.mem_append.1 hx with hx | hx
          · exact ⟨x.delay, List.mem_append_left _ (List.mem_map_of_mem hx), rfl⟩
          · rcases List.mem_cons.1 hx with rfl | hx
            · rw [he] at hoverdue
              cases hoverdue
            · exact ⟨x, List.mem_append_right _ hx, hoverdue⟩
    | text raw => exact .inr (ih h hover)
    | comment body => exact .inr (ih h hover)
    | conditionalStart e => exact .inr (ih h hover)
    | conditionalEnd raw => exact .inr (ih h hover)

end Outline

/-! ## The progress through an unfinished outline -/

namespace Filter

/-- The element that a tag would stand in. -/
def around? (es : List (OpenEntry (Nat × OpenedElement))) : Option String :=
  es.head?.map fun e => e.item.2.name

/-- The open elements with their verdicts cut the nodes of an outline into stretches. The progress
is a walk through the first, into the outermost open element and through what follows it, and so
on to the innermost one. -/
inductive Walked (f : Filter) :
    List Outlined → List (OpenEntry (Nat × OpenedElement)) → Progress → Prop
  | outside {nodes : List Outlined} (hnodes : Outline.InRange nodes) :
      Walked f nodes [] (f.walk none {} nodes)
  | inside {outer inner : List Outlined} {es : List (OpenEntry (Nat × OpenedElement))}
      {p : Progress} {e : Element} {entry : OpenEntry (Nat × OpenedElement)}
      (houter : Walked f outer es p) (hinner : Outline.InRange inner) (he : e.ending = .missing)
      (hnumber : entry.item.1 = outer.length)
      (hitem : entry.item.2 = (f.judge p.guard e (around? es) false).opened)
      (hentry : entry.overdue = false) :
      Walked f (outer ++ ⟨.element e, 0⟩ :: inner) (entry :: es)
        (f.walk (some entry.item.2.name)
          (f.startProgress p (f.judge p.guard e (around? es) false)) inner)

namespace Walked

variable {f : Filter} {nodes : List Outlined} {es : List (OpenEntry (Nat × OpenedElement))}
  {p : Progress}

/-- More nodes stand in the innermost open element. -/
theorem append (h : Walked f nodes es p) {block : List Outlined} (hblock : Outline.InRange block) :
    Walked f (nodes ++ block) es (f.walk (around? es) p block) := by
  cases h with
  | outside hnodes =>
    have hwalk := f.walk_append none {} block hnodes
    rw [around?, List.head?_nil, Option.map_none, ← hwalk]
    exact .outside (hnodes.append hblock)
  | inside houter hinner he hnumber hitem hentry =>
    rw [List.append_assoc, List.cons_append, around?, List.head?_cons, Option.map_some,
      ← f.walk_append _ _ block hinner]
    exact .inside houter (hinner.append hblock) he hnumber hitem hentry

/-- A node without others inside. -/
theorem leaf (h : Walked f nodes es p) (c : Content) :
    Walked f (nodes ++ [⟨c, 0⟩]) es (f.visit (around? es) p c []) := by
  have hrange : Outline.InRange [⟨c, 0⟩] := ⟨Nat.le_refl _, trivial⟩
  have hleaf := h.append hrange
  rwa [walk_singleton] at hleaf

/-- A start tag opens an element in the innermost one. -/
theorem opened (h : Walked f nodes es p) {e : Element} (he : e.ending = .missing) (number : Nat)
    (key : String) :
    Walked f (nodes ++ [⟨.element e, 0⟩])
      (⟨number, key, false, nodes.length, (f.judge p.guard e (around? es) false).opened⟩ :: es)
      (f.startProgress p (f.judge p.guard e (around? es) false)) := by
  have hinside : Walked f (nodes ++ [⟨.element e, 0⟩])
      (⟨number, key, false, nodes.length, (f.judge p.guard e (around? es) false).opened⟩ :: es)
      (f.walk _ (f.startProgress p (f.judge p.guard e (around? es) false)) []) :=
    inside h trivial he rfl rfl rfl
  rwa [walk_nil] at hinside

/-- An end tag closes the innermost element, which with what is inside becomes a part of the
stretch before it. -/
theorem closed (hf : f.policy.HasLocalListeners)
    {entry : OpenEntry (Nat × OpenedElement)} (h : Walked f nodes (entry :: es) p) :
    ∃ outer inner e, nodes = outer ++ ⟨.element e, 0⟩ :: inner ∧ outer.length = entry.item.1 ∧
      Walked f (outer ++ ⟨.element (e.withEnding .closed), inner.length⟩ :: inner) es
        (f.endProgress p entry.item.2) := by
  cases h with
  | inside houter hinner he hnumber hitem hentry =>
    rename_i outer inner q e
    refine ⟨outer, inner, e, rfl, hnumber.symm, ?_⟩
    have hrange : Outline.InRange
        (⟨.element (e.withEnding .closed), inner.length⟩ :: inner) := ⟨Nat.le_refl _, hinner⟩
    have hblock := houter.append hrange
    have hending := (sameTag_judge hf q.guard (e.withEnding .closed) (around? es) false).ending
    rw [judge_withEnding hf] at hending
    rw [walk_cons] at hblock
    dsimp only at hblock
    rw [List.take_length, List.drop_length, walk_nil, visit_element] at hblock
    dsimp only at hblock
    rw [show (e.withEnding .closed).isNeverClosed = false from rfl, judge_withEnding hf,
      closeElement_closed f _ _ hending] at hblock
    rw [hitem]
    exact hblock

end Walked

/-! ## The two ways side by side -/

/-- The outline of what has been read and the state of filtering it by piece belong together: the
text written so far is the progress through the outline, and the same elements are open. -/
structure Nested (f : Filter) (o : Outline) (st : PieceState) (text : String)
    (es : List (OpenEntry (Nat × OpenedElement))) : Prop where
  walked : Walked f o.nodes.toList es ⟨st.guard, text⟩
  outline : o.openElements.Represents (es.map (OpenEntry.map Prod.fst))
  opened : st.openElements.Represents (es.map (OpenEntry.map Prod.snd))
  nextNumber : o.openElements.nextNumber = st.openElements.nextNumber

namespace Nested

variable {f : Filter} {o : Outline} {st : PieceState} {text : String}
  {es : List (OpenEntry (Nat × OpenedElement))}

/-- A piece that is a node by itself. -/
theorem leaf (h : Nested f o st text es) {c : Content} {out : String}
    (hc : f.visit (around? es) ⟨st.guard, text⟩ c [] = ⟨st.guard, text ++ out⟩) :
    Nested f (o.append c) st (text ++ out) es := by
  refine ⟨?_, h.outline, h.opened, h.nextNumber⟩
  rw [Outline.toList_append, ← hc]
  exact h.walked.leaf c

theorem parent?_eq (h : Nested f o st text es) :
    st.openElements.current?.map OpenedElement.name = around? es := by
  rw [h.opened.current?_eq, around?, List.head?_map]
  cases es.head? <;> rfl

/-- A start tag. -/
theorem startTag (hf : f.policy.HasLocalListeners) (h : Nested f o st text es) {e : Element}
    (he : e.WellRead) :
    ∃ es', Nested f (o.add (.startTag e)) (f.stepStartTag st e).2
      (text ++ (f.stepStartTag st e).1) es' := by
  have htag := sameTag_judge hf st.guard e (around? es) false
  have hstep : f.stepStartTag st e =
      (f.renderStartTag (f.judge st.guard e (around? es) false).element
          (f.judge st.guard e (around? es) false).decision,
        ⟨if e.selfClosed then st.openElements
          else st.openElements.push e.name (f.judge st.guard e (around? es) false).opened,
          (f.judge st.guard e (around? es) false).guard⟩) := by
    simp only [stepStartTag, h.parent?_eq, htag.selfClosed, Verdict.opened, htag.name]
  have hopen := Outline.openElements_startTag o e
  rw [hstep]
  by_cases hself : e.selfClosed = true
  · rw [if_pos hself] at hopen ⊢
    refine ⟨es, ?_, hopen ▸ h.outline, h.opened, hopen ▸ h.nextNumber⟩
    have hleaf := h.walked.leaf (.element e)
    rw [visit_element, show e.isNeverClosed = false by simp [Element.isNeverClosed, hself]] at hleaf
    dsimp only at hleaf
    rw [walk_nil, closeElement_missing f _ _ (htag.ending.trans he.ending)] at hleaf
    rw [Outline.toList_startTag]
    exact hleaf
  · rw [if_neg hself] at hopen ⊢
    refine ⟨⟨o.openElements.nextNumber, AsciiCase.lower e.name, false, o.nodes.size,
      (f.judge st.guard e (around? es) false).opened⟩ :: es, ?_, ?_, ?_, ?_⟩
    · rw [Outline.toList_startTag, ← Array.length_toList]
      exact h.walked.opened he.ending _ _
    · exact hopen ▸ h.outline.push e.name o.nodes.size
    · rw [h.nextNumber]
      exact h.opened.push e.name _
    · rw [hopen]
      exact congrArg (· + 1) h.nextNumber

/-- An end tag, if it closes nothing or the innermost element. -/
theorem endTag (hf : f.policy.HasLocalListeners) (h : Nested f o st text es) (name raw : String)
    {pieces : List Piece} (hnested : o.wellNestedFrom (.endTag name raw :: pieces) = true) :
    ∃ es', Nested f (o.add (.endTag name raw)) (f.stepEndTag st name).2
      (text ++ (f.stepEndTag st name).1) es' := by
  rw [Outline.wellNestedFrom, Bool.and_eq_true] at hnested
  obtain ⟨htime, hrest⟩ := hnested
  rcases h.outline.close?_both h.opened name with
    ⟨hnone, hnone'⟩ | ⟨before, entry, after, c, c', rfl, hc, hc', hcloses, hcloses'⟩
  · refine ⟨es, ?_⟩
    rw [Outline.add_endTag_of_none raw hnone, stepEndTag, hnone']
    refine h.leaf ?_
    rw [visit, node]
    rfl
  · rw [Outline.closesInTime, hc, Option.all_some, hcloses.overdue] at htime
    have hinTime : entry.overdue = false := by simpa [OpenEntry.map] using htime
    -- an element passed over would stay overdue
    cases before with
    | cons skipped before =>
      have hover : ∃ e ∈ ((skipped :: before).map (OpenEntry.map Prod.fst)).map OpenEntry.delay ++
          after.map (OpenEntry.map Prod.fst), e.overdue = true :=
        ⟨(skipped.map Prod.fst).delay, by simp, rfl⟩
      rw [Outline.add_endTag_of_some raw hc, Outline.wellNestedFrom_of_overdue
        (Outline.openElements_close o c ▸ hcloses.remaining) hover] at hrest
      cases hrest
    | nil =>
      obtain ⟨outer, inner, e, hnodes, hnumber, hwalked⟩ := h.walked.closed hf
      have hskipped : c.skipped = [] := hcloses.skipped
      have hitem : c.item = outer.length := hcloses.item.trans hnumber.symm
      have hitem' : c'.item = entry.item.2 := hcloses'.item
      have hover : c.overdue = false := hcloses.overdue.trans hinTime
      have hover' : c'.overdue = false := hcloses'.overdue.trans hinTime
      have hopen := Outline.openElements_close o c
      have hstep : f.stepEndTag st name =
          (f.renderEndTag entry.item.2.name entry.item.2.decision
            (endObject st.guard entry.item.2.objectKey? true).1,
            ⟨c'.remaining, (endObject st.guard entry.item.2.objectKey? true).2⟩) := by
        simp [stepEndTag, hc', hitem', hover']
      have hclose : (o.close c).nodes.toList =
          outer ++ ⟨.element (e.withEnding .closed), inner.length⟩ :: inner := by
        rw [Outline.close, hskipped, hover, hitem]
        exact Outline.toList_finish (o := { o with openElements := c.remaining }) hnodes .closed
      rw [Outline.add_endTag_of_some raw hc, hstep]
      refine ⟨after, ?_, ?_, ?_, ?_⟩
      · rw [hclose]
        exact hwalked
      · exact hopen ▸ hcloses.remaining
      · exact hcloses'.remaining
      · rw [hopen, hcloses.nextNumber, h.nextNumber]
        exact hcloses'.nextNumber.symm

/-- One more piece of a well nested text. -/
theorem step (hf : f.policy.HasLocalListeners) (h : Nested f o st text es) {p : Piece}
    (hp : p.WellRead) {pieces : List Piece} (hnested : o.wellNestedFrom (p :: pieces) = true) :
    ∃ es', Nested f (o.add p) (f.step st p).2 (text ++ (f.step st p).1) es' := by
  cases p with
  | startTag e => exact h.startTag hf hp
  | endTag name raw => exact h.endTag hf name raw hnested
  | text raw => exact ⟨es, h.leaf (by rw [visit, node]; rfl)⟩
  | comment body => exact ⟨es, h.leaf (by rw [visit, node]; rfl)⟩
  | conditionalEnd raw => exact ⟨es, h.leaf (by rw [visit, node]; rfl)⟩
  | conditionalStart e =>
    obtain ⟨name, condition, rfl, hname, -⟩ := hp
    refine ⟨es, h.leaf ?_⟩
    have htag := sameTag_decide hf { name := name, condition := some condition } none false
    rw [visit_element, judge_conditional hf _ rfl hname]
    dsimp only
    rw [walk_nil, closeElement_missing f _ _ htag.ending]
    rfl

/-- What is written for the pieces that follow is the rest of the walk through the whole outline.
The induction is on the pieces; each of them is one step of the simulation. -/
theorem outputsFrom_eq (hf : f.policy.HasLocalListeners) {pieces : List Piece}
    (hpieces : ∀ p ∈ pieces, p.WellRead) (h : Nested f o st text es)
    (hnested : o.wellNestedFrom pieces = true) :
    text ++ String.join (f.outputsFrom st pieces) =
      (f.walk none {} (pieces.foldl Outline.add o).nodes.toList).text := by
  induction pieces generalizing o st text es with
  | nil =>
    have hsize : o.openElements.size = 0 := by
      simpa [Outline.wellNestedFrom] using hnested
    have hnil : es = [] := List.map_eq_nil_iff.1 (h.outline.eq_nil_of_size hsize)
    subst hnil
    have hwalk : ∀ nodes p, Walked f nodes [] p → p = f.walk none {} nodes := by
      rintro nodes p ⟨⟩
      rfl
    rw [List.foldl_nil, ← hwalk _ _ h.walked, outputsFrom, String.join_nil, String.append_empty]
  | cons p pieces ih =>
    obtain ⟨es', hstep⟩ := h.step hf (hpieces p (List.mem_cons_self ..)) hnested
    rw [Outline.wellNestedFrom, Bool.and_eq_true] at hnested
    have hrest := ih (fun q hq => hpieces q (List.mem_cons_of_mem _ hq)) hstep hnested.2
    rw [outputsFrom, String.join_cons, ← String.append_assoc, List.foldl_cons]
    exact hrest

theorem empty (f : Filter) : Nested f {} {} "" [] :=
  have h : Walked f [] [] (f.walk none {} []) := .outside trivial
  ⟨by rwa [walk_nil] at h, .empty, .empty, rfl⟩

end Nested

/-- **On well nested texts the two ways of filtering agree**, whatever the policy asks of parents
and end tags, and whatever addresses may use the network.

*Proof sketch.* Read the text piece by piece. As long as no element is overdue, the outline read so
far is cut by the open elements into stretches that are closed in themselves, and what has been
written is the walk through the first stretch, into the outermost open element, and so on
(`Walked`). Every piece keeps this (`Nested.step`): an end tag closes the innermost element, since
otherwise one would be overdue for the rest of the text. In the end nothing is open, and the only
stretch is the whole outline. -/
theorem byTree_eq_byPiece_of_wellNested (f : Filter) (hf : f.policy.HasLocalListeners)
    (input : String) (hinput : Markup.wellNested input = true) :
    f.byTree input = f.byPiece input := by
  have hread : ∀ p ∈ Piece.ofText input, p.WellRead := by
    rw [Piece.ofText_eq_pieces]
    exact Reader.wellRead_pieces _
  rw [Markup.wellNested, Piece.ofDocument_eq_ofText] at hinput
  have h := (Nested.empty f).outputsFrom_eq hf hread hinput
  rw [byTree_eq_walk f hf, Piece.ofDocument_eq_ofText, byPiece, outputs, Outline.ofPieces, ← h,
    String.empty_append]

/-- Lists that allow items only, which ask for their end tags. -/
def lists : Filter where
  policy := { elements := ⟨[("ul", { name := "ul", children := ["li"] }),
    ("li", { name := "li", requiresEndTag := true }), ("b", { name := "b" })]⟩ }

theorem lists_hasLocalListeners : lists.policy.HasLocalListeners := by
  have hall : lists.policy.elements.Every fun rule => rule.listeners = [] := by
    simp [RuleTable.Every, lists]
  intro name rule hrule l hl
  rw [hall.of_find? hrule] at hl
  cases hl

/-- An element that is not allowed inside of a list, and a stray end tag. -/
theorem byTree_eq_byPiece_of_lists :
    Markup.wellNested "<ul><b>x</b><li>y</li></ul></b>" = true ∧
      lists.byTree "<ul><b>x</b><li>y</li></ul></b>" =
        lists.byPiece "<ul><b>x</b><li>y</li></ul></b>" ∧
      lists.byPiece "<ul><b>x</b><li>y</li></ul></b>" =
        "<ul><!-- Not Allowed Tag Filtered -->&lt;b&gt;x&lt;/b&gt;<li>y</li></ul></b>" := by
  have hnested : Markup.wellNested "<ul><b>x</b><li>y</li></ul></b>" = true := by
    decide +kernel
  exact ⟨hnested, byTree_eq_byPiece_of_wellNested lists lists_hasLocalListeners _ hnested,
    by decide +kernel⟩

end Filter

end MarkupFilter
