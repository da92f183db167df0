import MarkupFilter.Proofs.Filter.Frames
import MarkupFilter.Proofs.Markup.OpenStack
import MarkupFilter.Proofs.Markup.Pieces
import MarkupFilter.Proofs.Markup.Shape
import MarkupFilter.Proofs.Policy.BaselineTables

/-!
# Tags that cross

Where the rules do not ask for a place, filtering by piece and by tree agree on every text, however
its tags cross. At every moment the text written by piece is that of a walk through the outline read
so far: an element that waits for its end tag contains nothing, an end tag in its place only adds
its own text after all that the element contains from then on, and one that is not in its place adds
nothing.

## Main definitions

* `Filter.Crossed` — the outline read so far and the state of filtering by piece.

## Main results

* `Filter.walk_crossed`, `Filter.walk_closed` — what an end tag changes in a walk.
* `Filter.byTree_eq_byPiece_of_ignoresPlace` — the two ways of filtering agree on every text.
-/

set_option autoImplicit false

namespace MarkupFilter

open OpenElements (Represents)

namespace Filter

variable {f : Filter}

/-! ## End tags in a walk -/

/-- A node is visited alike when it is settled, if walks through what is inside it are. -/
theorem visit_settle (hf : f.policy.HasLocalListeners) (parent? : Option String) (p : Progress)
    (o : Outlined) {inside inside' : List Outlined}
    (hin : ∀ parent? p, f.walk parent? p inside' = f.walk parent? p inside) :
    f.visit parent? p o.settle.content inside' = f.visit parent? p o.content inside := by
  obtain ⟨content, extent⟩ := o
  by_cases hcontent : ∃ e : Element, content = .element e
  · obtain ⟨e, rfl⟩ := hcontent
    by_cases hover : e.ending = .overdue
    · have hsettle : Outlined.settle ⟨.element e, extent⟩ =
          ⟨.element (e.withEnding .missing), extent⟩ := by
        simp only [Outlined.settle, hover, if_true, Outlined.withEnding, Element.withEnding]
      have hnever : (e.withEnding .missing).isNeverClosed = e.isNeverClosed := by
        simp only [Element.isNeverClosed, Element.withEnding, hover]
        rfl
      have hopen : ∀ q, f.closeElement (f.judge p.guard e parent? e.isNeverClosed) q = q := by
        intro q
        unfold closeElement
        rw [(sameTag_judge hf p.guard e parent? e.isNeverClosed).ending, hover]
      rw [hsettle, visit_element, visit_element, hnever, judge_withEnding hf]
      dsimp only
      rw [hopen, closeElement_missing f _ _ rfl, hin]
      rfl
    · have hsettle : Outlined.settle ⟨.element e, extent⟩ = ⟨.element e, extent⟩ := by
        simp only [Outlined.settle, hover, if_false]
      rw [hsettle, visit_element, visit_element]
      dsimp only
      rw [hin]
  · have hother : ∀ e, content ≠ .element e := fun e he => hcontent ⟨e, he⟩
    have hsettle : Outlined.settle ⟨content, extent⟩ = ⟨content, extent⟩ := by
      unfold Outlined.settle
      split
      · next e he => exact absurd he (hother e)
      · rfl
    rw [hsettle]
    exact (f.visit_other parent? p hother _).trans (f.visit_other parent? p hother _).symm

/-- It does not count for a walk whether end tags are overdue. The induction is on the number of
nodes. -/
theorem walk_settle (hf : f.policy.HasLocalListeners) (parent? : Option String) (p : Progress)
    (nodes : List Outlined) :
    f.walk parent? p (nodes.map Outlined.settle) = f.walk parent? p nodes := by
  induction hn : nodes.length using Nat.strongRecOn generalizing nodes parent? p with
  | _ n ih =>
    cases nodes with
    | nil => rfl
    | cons o os =>
      have hinside : (os.take o.extent).length < n := by
        rw [← hn, List.length_take, List.length_cons]
        omega
      have hafter : (os.drop o.extent).length < n := by
        rw [← hn, List.length_drop, List.length_cons]
        omega
      rw [List.map_cons, walk_cons, walk_cons, Outlined.extent_settle, ← List.map_drop,
        ← List.map_take, ih _ hafter _ _ _ rfl,
        visit_settle hf parent? p o fun parent? p => ih _ hinside parent? p _ rfl]

/-- An element that waits for its end tag, and what follows it. -/
theorem walk_waiting (hp : f.policy.IgnoresPlace) (hf : f.policy.HasLocalListeners)
    (parent? : Option String) (p : Progress) {e : Element} (he : e.ending = .missing)
    (b : List Outlined) :
    f.walk parent? p (⟨.element e, 0⟩ :: b) =
      f.walk parent? (f.startProgress p (f.judge p.guard e none false)) b := by
  have hending := (sameTag_judge hf p.guard e none false).ending
  rw [walk_cons, List.take_zero, List.drop_zero, visit_element, judge_place hp]
  dsimp only
  rw [walk_nil, closeElement_missing f _ _ (hending.trans he)]

/-- An element with its end tag, and what it contains. -/
theorem walk_ended (hp : f.policy.IgnoresPlace) (hf : f.policy.HasLocalListeners)
    (parent? : Option String) (p : Progress) (e : Element) (ending : Ending) {k : Nat}
    {b : List Outlined} (hk : b.length ≤ k) :
    let v := f.judge p.guard e none false
    f.walk parent? p (⟨.element (e.withEnding ending), k⟩ :: b) =
      f.closeElement (v.withEnding ending)
        (f.walk (some v.element.name) (f.startProgress p v) b) := by
  dsimp only
  rw [walk_cons]
  dsimp only
  rw [List.take_of_length_le hk, List.drop_eq_nil_of_le hk, walk_nil, visit_element,
    judge_place hp, judge_withEnding hf]
  rfl

/-- **An end tag that is not in its place** changes nothing in a walk, whatever the element contains
from then on.

*Proof sketch.* By induction on the number of nodes before the element. If the first of them does
not reach to the element, this is about the nodes after those inside it. If it does, the element
stands inside it, and contains as much as is inside. -/
theorem walk_crossed (hp : f.policy.IgnoresPlace) (hf : f.policy.HasLocalListeners)
    (hnet : f.DeniesNetwork) {e : Element} (he : e.ending = .missing) (a b : List Outlined)
    {k : Nat} (hk : b.length ≤ k) (parent? parent?' : Option String) {p q : Progress}
    (h : SameInternal p q) :
    SameInternal (f.walk parent? p (a ++ ⟨.element e, 0⟩ :: b))
      (f.walk parent?' q (a ++ ⟨.element (e.withEnding .crossClosed), k⟩ :: b)) := by
  induction hn : a.length using Nat.strongRecOn generalizing a b parent? parent?' p q with
  | _ n ih =>
    cases a with
    | nil =>
      have hv := (judge_alike hp hnet h.1.guard h.2 e none none false false)
      have hending := (sameTag_judge hf q.guard (e.withEnding .crossClosed) none false).ending
      rw [judge_withEnding hf] at hending
      have hne : ((f.judge q.guard e none false).withEnding .crossClosed).element.ending ≠
          .closed := by
        rw [hending]
        exact fun h => nomatch h
      have hwalk := walk_alike hp hnet b parent? (some (f.judge q.guard e none false).element.name)
        ⟨startProgress_alike (f := f) h.1 hv.1, hv.2⟩
      rw [List.nil_append, List.nil_append, walk_waiting hp hf _ _ he, walk_ended hp hf _ _ _ _ hk]
      exact ⟨hwalk.1.trans (f.closeElement_alike _ _ hne), hwalk.2⟩
    | cons o os =>
      rw [List.length_cons] at hn
      rw [List.cons_append, List.cons_append, walk_cons, walk_cons]
      by_cases hext : o.extent ≤ os.length
      · have hshort : (os.drop o.extent).length < n := by
          rw [List.length_drop]
          omega
        rw [List.take_append_of_le_length hext, List.take_append_of_le_length hext,
          List.drop_append_of_le_length hext, List.drop_append_of_le_length hext]
        refine ih _ hshort _ _ hk parent? parent?' ?_ rfl
        exact visit_alike hp hnet parent? parent?' h
          (fun par par' _ _ h => walk_alike hp hnet _ par par' h) o.content
      · have hcut : ∀ x : Outlined, (os ++ x :: b).take o.extent =
            os ++ x :: b.take (o.extent - os.length - 1) ∧
              (os ++ x :: b).drop o.extent = b.drop (o.extent - os.length - 1) := by
          intro x
          obtain ⟨m, hm⟩ : ∃ m, o.extent = os.length + (m + 1) :=
            ⟨o.extent - os.length - 1, by omega⟩
          rw [hm, List.take_length_add_append, List.drop_length_add_append, List.take_succ_cons,
            List.drop_succ_cons, Nat.add_sub_cancel_left, Nat.add_sub_cancel]
          exact ⟨rfl, rfl⟩
        rw [(hcut _).1, (hcut _).1, (hcut _).2, (hcut _).2]
        refine walk_alike hp hnet _ parent? parent?' ?_
        refine visit_alike hp hnet parent? parent?' h (fun par par' _ _ h => ?_) o.content
        refine ih os.length (by omega) os _ ?_ par par' h rfl
        rw [List.length_take]
        omega

/-- **An end tag in its place** is written after all that the element contains from then on. -/
theorem walk_closed (hp : f.policy.IgnoresPlace) (hf : f.policy.HasLocalListeners)
    (hnet : f.DeniesNetwork) {e : Element} (he : e.ending = .missing) {a : List Outlined}
    (b : List Outlined) (ha : Outline.InRange a) :
    let v := f.judge (f.walk none {} a).guard e none false
    ∃ p : Progress,
      f.walk none {} (a ++ ⟨.element (e.withEnding .closed), b.length⟩ :: b) =
          f.endProgress p v.opened ∧
        (f.walk none {} (a ++ ⟨.element e, 0⟩ :: b)).Alike p ∧
        ∀ key, v.objectKey? = some key → key ∈ p.guard.openKeys := by
  dsimp only
  have hinternal : SameInternal ({} : Progress) {} := ⟨.refl _, ObjectGuard.internal_empty⟩
  have hstart := walk_alike hp hnet a none none hinternal
  have hv := judge_alike hp hnet hstart.1.guard hstart.2 e none none false false
  have hending := (sameTag_judge hf (f.walk none {} a).guard (e.withEnding .closed) none
    false).ending
  rw [judge_withEnding hf] at hending
  have hwalk := walk_alike hp hnet b none
    (some (f.judge (f.walk none {} a).guard e none false).element.name)
    ⟨startProgress_alike (f := f) hstart.1 hv.1, hv.2⟩
  refine ⟨f.walk (some (f.judge (f.walk none {} a).guard e none false).element.name)
    (f.startProgress (f.walk none {} a) (f.judge (f.walk none {} a).guard e none false)) b,
    ?_, ?_, fun key hkey => ?_⟩
  · rw [f.walk_append _ _ _ ha, walk_ended hp hf none _ e .closed (Nat.le_refl _),
      closeElement_closed f _ _ hending]
    rfl
  · rw [f.walk_append _ _ _ ha, walk_waiting hp hf _ _ he]
    exact hwalk.1
  · obtain ⟨-, hlt, hmem⟩ :=
      (f.extends_judge (f.walk none {} a).guard e none false).2 key hkey
    exact ((f.walk_extends _ (f.startProgress (f.walk none {} a)
      (f.judge (f.walk none {} a).guard e none false)) b).openKeys key hlt).2 hmem

/-! ## The two ways side by side -/

/-- The element with the given number waits for its end tag, the nodes before it contain none but
each other, and `x` is the verdict on it at the end of a walk through them. -/
def OpenedAt (f : Filter) (nodes : List Outlined) (number : Nat) (x : OpenedElement) : Prop :=
  ∃ e : Element, nodes[number]? = some ⟨.element e, 0⟩ ∧ e.ending = .missing ∧
    Outline.InRange (nodes.take number) ∧
      x = (f.judge (f.walk none {} (nodes.take number)).guard e none false).opened

/-- It does not count what has become of the nodes after the element. -/
theorem OpenedAt.of_take {nodes nodes' : List Outlined} {number : Nat} {x : OpenedElement}
    (h : OpenedAt f nodes number x)
    (htake : nodes'.take (number + 1) = nodes.take (number + 1)) :
    OpenedAt f nodes' number x := by
  obtain ⟨e, hnode, he, hrange, hopened⟩ := h
  have hbefore : nodes'.take number = nodes.take number := by
    have := congrArg (List.take number) htake
    rwa [List.take_take, List.take_take, Nat.min_eq_left (Nat.le_succ _)] at this
  refine ⟨e, ?_, he, hbefore ▸ hrange, hbefore ▸ hopened⟩
  rw [← hnode, ← List.getElem?_take_of_lt (Nat.lt_succ_self _), htake,
    List.getElem?_take_of_lt (Nat.lt_succ_self _)]

/-- An end tag that is not in its place, in a walk and by piece. -/
theorem walked_crossed (hp : f.policy.IgnoresPlace) (hf : f.policy.HasLocalListeners)
    (hnet : f.DeniesNetwork) {a b : List Outlined} {e : Element} {g : ObjectGuard} {text : String}
    (h : SameInternal (f.walk none {} (a ++ ⟨.element e, 0⟩ :: b)) ⟨g, text⟩)
    (he : e.ending = .missing) {k : Nat} (hk : b.length ≤ k) (key? : Option Nat) :
    SameInternal (f.walk none {} (a ++ ⟨.element (e.withEnding .crossClosed), k⟩ :: b))
      ⟨(endObject g key? false).2, text⟩ := by
  have hstart : SameInternal ({} : Progress) {} := ⟨.refl _, ObjectGuard.internal_empty⟩
  have hcrossed := walk_crossed hp hf hnet he a b hk none none hstart
  have hends : g.Alike (endObject g key? false).2 := by
    unfold endObject
    cases key? with
    | none => exact .refl _
    | some key => exact ObjectGuard.alike_close _ _ _
  refine ⟨⟨?_, ?_⟩, hcrossed.2.alike hcrossed.1.guard⟩
  · rw [hcrossed.1.text]
    exact h.1.text
  · exact (hcrossed.1.guard.symm.trans h.1.guard).trans hends

/-- An end tag in its place, in a walk and by piece. -/
theorem walked_closed (hp : f.policy.IgnoresPlace) (hf : f.policy.HasLocalListeners)
    (hnet : f.DeniesNetwork) {a b : List Outlined} {e : Element} {g : ObjectGuard} {text : String}
    (h : SameInternal (f.walk none {} (a ++ ⟨.element e, 0⟩ :: b)) ⟨g, text⟩)
    (he : e.ending = .missing) {x : OpenedElement}
    (hx : OpenedAt f (a ++ ⟨.element e, 0⟩ :: b) a.length x)
    (hkey : ∀ key, x.objectKey? = some key → key ∈ g.openKeys) :
    SameInternal (f.walk none {} (a ++ ⟨.element (e.withEnding .closed), b.length⟩ :: b))
      (f.endProgress ⟨g, text⟩ x) := by
  obtain ⟨e', hnode, -, hrange, hopened⟩ := hx
  rw [List.getElem?_append_right (Nat.le_refl _), Nat.sub_self, List.getElem?_cons_zero] at hnode
  obtain rfl : e = e' := by
    injection hnode with hnode
    injection hnode with hnode
    injection hnode
  rw [List.take_left] at hrange hopened
  obtain ⟨p, hwalk, halike, hopen⟩ := walk_closed hp hf hnet he b hrange
  have hinternal : p.guard.Internal := h.2.alike halike.guard
  rw [hwalk, ← hopened]
  refine ⟨endProgress_alike (halike.symm.trans h.1) x fun key hsome => ⟨?_, hkey key hsome⟩, ?_⟩
  · refine hopen key ?_
    rwa [hopened] at hsome
  · unfold endProgress endObject
    cases x.objectKey? with
    | none => exact hinternal
    | some key => exact hinternal.alike (ObjectGuard.alike_close _ _ _)

/-- The outline of what has been read and the state of filtering it by piece belong together: the
text written so far is that of a walk through the settled nodes, and the same elements are open.
Open objects have different frames, which are open in the guard. -/
structure Crossed (f : Filter) (o : Outline) (st : PieceState) (text : String)
    (es : List (OpenEntry (Nat × OpenedElement))) : Prop where
  walked : SameInternal (f.walk none {} o.settled) ⟨st.guard, text⟩
  range : Outline.InRange o.settled
  outline : o.openElements.Represents (es.map (OpenEntry.map Prod.fst))
  opened : st.openElements.Represents (es.map (OpenEntry.map Prod.snd))
  nextNumber : o.openElements.nextNumber = st.openElements.nextNumber
  waiting : ∀ x ∈ es, Outline.Waiting o.settled x.item.1
  descending : es.Pairwise fun x y => y.item.1 < x.item.1
  openedAt : ∀ x ∈ es, x.overdue = false → OpenedAt f o.settled x.item.1 x.item.2
  keysOpen : ∀ x ∈ es, ∀ key, x.item.2.objectKey? = some key →
    key ∈ st.guard.openKeys ∧ key < st.guard.nextKey
  keysApart : es.Pairwise fun x y => ∀ key, x.item.2.objectKey? = some key →
    y.item.2.objectKey? ≠ some key

namespace Crossed

variable {o : Outline} {st : PieceState} {text : String}
  {es : List (OpenEntry (Nat × OpenedElement))}

/-- More nodes at the end do not change what is known of the open elements. -/
theorem waiting_append (h : Crossed f o st text es) (block : List Outlined) :
    (∀ x ∈ es, Outline.Waiting (o.settled ++ block) x.item.1) ∧
      ∀ x ∈ es, x.overdue = false → OpenedAt f (o.settled ++ block) x.item.1 x.item.2 := by
  have hlt : ∀ x ∈ es, x.item.1 < o.settled.length := by
    intro x hx
    obtain ⟨e, hnode, -⟩ := h.waiting x hx
    exact (List.getElem?_eq_some_iff.1 hnode).1
  refine ⟨fun x hx => ?_, fun x hx hover => ?_⟩
  · obtain ⟨e, hnode, he⟩ := h.waiting x hx
    exact ⟨e, by rw [List.getElem?_append_left (hlt x hx), hnode], he⟩
  · refine (h.openedAt x hx hover).of_take ?_
    exact List.take_append_of_le_length (hlt x hx)

/-- A piece that is a node by itself. -/
theorem leaf (hp : f.policy.IgnoresPlace) (hnet : f.DeniesNetwork) (h : Crossed f o st text es)
    {c : Content} {out : String} (hsettle : Outlined.settle ⟨c, 0⟩ = ⟨c, 0⟩)
    (hc : f.visit none ⟨st.guard, text⟩ c [] = ⟨st.guard, text ++ out⟩) :
    Crossed f (o.append c) st (text ++ out) es := by
  have hsettled := Outline.settled_append (o := o) hsettle
  obtain ⟨hwaiting, hopenedAt⟩ := h.waiting_append [⟨c, 0⟩]
  have hin : ∀ (parent? parent?' : Option String) {p q : Progress}, SameInternal p q →
      SameInternal (f.walk parent? p []) (f.walk parent?' q []) := by
    intro parent? parent?' p q h
    rwa [walk_nil, walk_nil]
  refine ⟨?_, ?_, h.outline, h.opened, h.nextNumber, hsettled ▸ hwaiting, h.descending,
    hsettled ▸ hopenedAt, h.keysOpen, h.keysApart⟩
  · rw [hsettled, f.walk_append _ _ _ h.range, walk_singleton, ← hc]
    exact visit_alike hp hnet none none h.walked hin c
  · rw [hsettled]
    exact h.range.append ⟨Nat.le_refl _, trivial⟩

/-- A start tag. The node it adds waits for its end tag, if it does not close itself, and the
verdict on it is the same in the walk and by piece. -/
theorem startTag (hp : f.policy.IgnoresPlace) (hf : f.policy.HasLocalListeners)
    (hnet : f.DeniesNetwork) (h : Crossed f o st text es) {e : Element} (he : e.WellRead) :
    ∃ es', Crossed f (o.add (.startTag e)) (f.stepStartTag st e).2
      (text ++ (f.stepStartTag st e).1) es' := by
  obtain ⟨hv, hinternal⟩ := judge_alike hp hnet h.walked.1.guard h.walked.2 e none none false false
  have htag := sameTag_judge hf st.guard e none false
  have hstep : f.stepStartTag st e =
      (f.renderStartTag (f.judge st.guard e none false).element
          (f.judge st.guard e none false).decision,
        ⟨if e.selfClosed then st.openElements
          else st.openElements.push e.name (f.judge st.guard e none false).opened,
          (f.judge st.guard e none false).guard⟩) := by
    simp only [stepStartTag, judge_place hp, htag.selfClosed, Verdict.opened, htag.name]
  have hsettled : (o.add (.startTag e)).settled = o.settled ++ [⟨.element e, 0⟩] := by
    refine Outline.settled_append (o := o) ?_
    simp only [Outlined.settle, he.ending]
    rfl
  have hopen := Outline.openElements_startTag o e
  have hwalked : SameInternal (f.walk none {} (o.add (.startTag e)).settled)
      (f.startProgress ⟨st.guard, text⟩ (f.judge st.guard e none false)) := by
    rw [hsettled, f.walk_append _ _ _ h.range, walk_waiting hp hf _ _ he.ending, walk_nil]
    exact ⟨startProgress_alike h.walked.1 hv, hinternal⟩
  have hrange : Outline.InRange (o.add (.startTag e)).settled := by
    rw [hsettled]
    exact h.range.append ⟨Nat.le_refl _, trivial⟩
  obtain ⟨hwaiting, hopenedAt⟩ := h.waiting_append [⟨.element e, 0⟩]
  obtain ⟨hextends, hkey⟩ := f.extends_judge st.guard e none false
  have hkeysOpen : ∀ x ∈ es, ∀ key, x.item.2.objectKey? = some key →
      key ∈ (f.judge st.guard e none false).guard.openKeys ∧
        key < (f.judge st.guard e none false).guard.nextKey := by
    intro x hx key hsome
    obtain ⟨hmem, hlt⟩ := h.keysOpen x hx key hsome
    exact ⟨(hextends.openKeys key hlt).2 hmem, Nat.lt_of_lt_of_le hlt hextends.nextKey⟩
  rw [hstep]
  by_cases hself : e.selfClosed = true
  · rw [if_pos hself] at hopen ⊢
    exact ⟨es, hwalked, hrange, hopen ▸ h.outline, h.opened, hopen ▸ h.nextNumber,
      hsettled ▸ hwaiting, h.descending, hsettled ▸ hopenedAt, hkeysOpen, h.keysApart⟩
  · rw [if_neg hself] at hopen ⊢
    have hlast : (o.settled ++ [⟨.element e, 0⟩])[o.nodes.size]? = some ⟨.element e, 0⟩ := by
      rw [← o.length_settled, List.getElem?_concat_length]
    refine ⟨⟨o.openElements.nextNumber, AsciiCase.lower e.name, false, o.nodes.size,
      (f.judge st.guard e none false).opened⟩ :: es, hwalked, hrange, ?_, ?_, ?_, ?_, ?_, ?_, ?_,
      ?_⟩
    · exact hopen ▸ h.outline.push e.name o.nodes.size
    · rw [h.nextNumber]
      exact h.opened.push e.name _
    · rw [hopen]
      exact congrArg (· + 1) h.nextNumber
    · rw [hsettled]
      intro x hx
      rcases List.mem_cons.1 hx with rfl | hmem
      · exact ⟨e, hlast, he.ending⟩
      · exact hwaiting x hmem
    · refine List.pairwise_cons.2 ⟨fun x hx => ?_, h.descending⟩
      obtain ⟨e', hnode, -⟩ := h.waiting x hx
      exact o.length_settled ▸ (List.getElem?_eq_some_iff.1 hnode).1
    · rw [hsettled]
      intro x hx hover
      rcases List.mem_cons.1 hx with rfl | hmem
      · have htake : (o.settled ++ [(⟨.element e, 0⟩ : Outlined)]).take o.nodes.size =
            o.settled := by
          rw [← o.length_settled, List.take_left]
        refine ⟨e, hlast, he.ending, htake.symm ▸ h.range, ?_⟩
        rw [htake]
        exact opened_alike hv
      · exact hopenedAt x hmem hover
    · intro x hx key hsome
      rcases List.mem_cons.1 hx with rfl | hmem
      · exact ⟨(hkey key hsome).2.2, (hkey key hsome).2.1⟩
      · exact hkeysOpen x hmem key hsome
    · refine List.pairwise_cons.2 ⟨fun x hx key hsome hsome' => ?_, h.keysApart⟩
      -- the frame of the new object is not open before
      have hnew := (hkey key hsome).1
      have hold := (h.keysOpen x hx key hsome').2
      omega

/-- The nodes around an open element. -/
theorem split (h : Crossed f o st text es) {x : OpenEntry (Nat × OpenedElement)} (hx : x ∈ es) :
    ∃ (e : Element) (a b : List Outlined), o.settled = a ++ ⟨.element e, 0⟩ :: b ∧
      a.length = x.item.1 ∧ e.ending = .missing := by
  obtain ⟨e, hnode, he⟩ := h.waiting x hx
  obtain ⟨hlt, hget⟩ := List.getElem?_eq_some_iff.1 hnode
  refine ⟨e, o.settled.take x.item.1, o.settled.drop (x.item.1 + 1), ?_, ?_, he⟩
  · rw [← hget, ← List.drop_eq_getElem_cons, List.take_append_drop]
  · rw [List.length_take]
    omega

/-- What is left of the open elements once one of them is closed: the nodes have changed at its
place only, and its frame is closed. -/
theorem without {before after : List (OpenEntry (Nat × OpenedElement))}
    {entry : OpenEntry (Nat × OpenedElement)}
    (h : Crossed f o st text (before ++ entry :: after)) {a b : List Outlined} {y y' : Outlined}
    {nodes : List Outlined} {g : ObjectGuard} (hnodes : o.settled = a ++ y :: b)
    (hlen : a.length = entry.item.1) (hnodes' : nodes = a ++ y' :: b)
    (hnext : g.nextKey = st.guard.nextKey)
    (hkeys : ∀ key ∈ st.guard.openKeys, entry.item.2.objectKey? ≠ some key → key ∈ g.openKeys) :
    let es := before.map OpenEntry.delay ++ after
    (∀ x ∈ es, Outline.Waiting nodes x.item.1) ∧
      (es.Pairwise fun x y => y.item.1 < x.item.1) ∧
      (∀ x ∈ es, x.overdue = false → OpenedAt f nodes x.item.1 x.item.2) ∧
      (∀ x ∈ es, ∀ key, x.item.2.objectKey? = some key →
        key ∈ g.openKeys ∧ key < g.nextKey) ∧
      es.Pairwise fun x y => ∀ key, x.item.2.objectKey? = some key →
        y.item.2.objectKey? ≠ some key := by
  dsimp only
  obtain ⟨hbefore, hrest, hacross⟩ := List.pairwise_append.1 h.descending
  obtain ⟨hbelow, hafter⟩ := List.pairwise_cons.1 hrest
  obtain ⟨kbefore, krest, kacross⟩ := List.pairwise_append.1 h.keysApart
  obtain ⟨kbelow, kafter⟩ := List.pairwise_cons.1 krest
  -- an entry that is left was there before, and is another one than that of the end tag
  have hold : ∀ x ∈ before.map OpenEntry.delay ++ after, ∃ x' ∈ before ++ entry :: after,
      x'.item = x.item ∧ x'.item.1 ≠ entry.item.1 ∧
        (∀ key, x'.item.2.objectKey? = some key → entry.item.2.objectKey? ≠ some key) ∧
        (x.overdue = false → x'.overdue = false ∧ x'.item.1 < entry.item.1) := by
    intro x hx
    rcases List.mem_append.1 hx with hmem | hmem
    · obtain ⟨x', hx', rfl⟩ := List.mem_map.1 hmem
      have hlt := hacross x' hx' entry (List.mem_cons_self ..)
      refine ⟨x', List.mem_append_left _ hx', rfl, by omega,
        kacross x' hx' entry (List.mem_cons_self ..), fun hover => ?_⟩
      cases hover
    · have hlt := hbelow x hmem
      refine ⟨x, List.mem_append_right _ (List.mem_cons_of_mem _ hmem), rfl, by omega,
        fun key hsome hsome' => kbelow x hmem key hsome' hsome, fun hover => ⟨hover, hlt⟩⟩
  refine ⟨?_, ?_, ?_, ?_, ?_⟩
  · intro x hx
    obtain ⟨x', hx', hitem, hne, -, -⟩ := hold x hx
    obtain ⟨e, hnode, he⟩ := h.waiting x' hx'
    refine ⟨e, ?_, he⟩
    rw [← hitem, ← hnode, hnodes, hnodes', List.getElem?_append, List.getElem?_append]
    split
    · rfl
    · obtain ⟨m, hm⟩ : ∃ m, x'.item.1 - a.length = m + 1 := ⟨x'.item.1 - a.length - 1, by omega⟩
      rw [hm, List.getElem?_cons_succ, List.getElem?_cons_succ]
  · rw [List.pairwise_append, List.pairwise_map]
    refine ⟨hbefore, hafter, fun x hx y hy => ?_⟩
    obtain ⟨x', hx', rfl⟩ := List.mem_map.1 hx
    exact hacross x' hx' y (List.mem_cons_of_mem _ hy)
  · intro x hx hover
    obtain ⟨x', hx', hitem, -, -, hinTime⟩ := hold x hx
    obtain ⟨hover', hlt⟩ := hinTime hover
    have hopened := h.openedAt x' hx' hover'
    rw [hitem] at hopened hlt
    refine hopened.of_take ?_
    rw [hnodes, hnodes', List.take_append_of_le_length (by omega),
      List.take_append_of_le_length (by omega)]
  · intro x hx key hsome
    obtain ⟨x', hx', hitem, -, hapart, -⟩ := hold x hx
    rw [← hitem] at hsome
    obtain ⟨hmem, hlt⟩ := h.keysOpen x' hx' key hsome
    exact ⟨hkeys key hmem (hapart key hsome), hnext.symm ▸ hlt⟩
  · rw [List.pairwise_append, List.pairwise_map]
    refine ⟨kbefore, kafter, fun x hx y hy => ?_⟩
    obtain ⟨x', hx', rfl⟩ := List.mem_map.1 hx
    exact kacross x' hx' y (List.mem_cons_of_mem _ hy)

/-- The settled nodes after an end tag that has closed an element. -/
theorem settled_close {before after : List (OpenEntry (Nat × OpenedElement))}
    {entry : OpenEntry (Nat × OpenedElement)}
    (h : Crossed f o st text (before ++ entry :: after)) {c : Closure Nat}
    (hcloses : Represents.Closes o.openElements c (before.map (OpenEntry.map Prod.fst))
      (entry.map Prod.fst) (after.map (OpenEntry.map Prod.fst)))
    {e : Element} {a b : List Outlined} (hnodes : o.settled = a ++ ⟨.element e, 0⟩ :: b)
    (hlen : a.length = entry.item.1) (he : e.ending = .missing) :
    (o.close c).settled = a ++
      ⟨.element (e.withEnding (if entry.overdue then .crossClosed else .closed)), b.length⟩ :: b := by
  have hskipped : ∀ number ∈ c.skipped, Outline.Waiting o.settled number := by
    rw [hcloses.skipped]
    intro number hnumber
    obtain ⟨x, hx, rfl⟩ := List.mem_map.1 hnumber
    obtain ⟨y, hy, rfl⟩ := List.mem_map.1 (List.mem_filter.1 hx).1
    exact h.waiting y (List.mem_append_left _ hy)
  have hitem : c.item = a.length := hcloses.item.trans hlen.symm
  have hover : c.overdue = entry.overdue := hcloses.overdue
  have hdelays := Outline.settled_delays (o := { o with openElements := c.remaining }) hskipped
  rw [Outline.close, hitem, hover]
  refine Outline.settled_finish (hdelays.trans hnodes) he ?_
  cases entry.overdue <;> decide

/-- An end tag. In its place it is written for its element, and otherwise it is left out; in both
cases the nodes of the outline change accordingly. -/
theorem endTag (hp : f.policy.IgnoresPlace) (hf : f.policy.HasLocalListeners)
    (hnet : f.DeniesNetwork) (h : Crossed f o st text es) (name raw : String) :
    ∃ es', Crossed f (o.add (.endTag name raw)) (f.stepEndTag st name).2
      (text ++ (f.stepEndTag st name).1) es' := by
  rcases h.outline.close?_both h.opened name with
    ⟨hnone, hnone'⟩ | ⟨before, entry, after, c, c', rfl, hc, hc', hcloses, hcloses'⟩
  · refine ⟨es, ?_⟩
    rw [Outline.add_endTag_of_none raw hnone, stepEndTag, hnone']
    exact h.leaf hp hnet rfl (by rw [visit, node]; rfl)
  · have hentry : entry ∈ before ++ entry :: after :=
      List.mem_append_right _ (List.mem_cons_self ..)
    obtain ⟨e, a, b, hnodes, hlen, he⟩ := h.split hentry
    have hsettled := h.settled_close hcloses hnodes hlen he
    have hrange : Outline.InRange (o.close c).settled := by
      have hold := h.range
      rw [hnodes] at hold
      rw [hsettled]
      exact hold.replace (Nat.le_refl _)
    have hstep : f.stepEndTag st name =
        (if entry.overdue then "" else f.renderEndTag entry.item.2.name entry.item.2.decision
            (endObject st.guard entry.item.2.objectKey? (!entry.overdue)).1,
          ⟨c'.remaining, (endObject st.guard entry.item.2.objectKey? (!entry.overdue)).2⟩) := by
      have hitem : c'.item = entry.item.2 := hcloses'.item
      have hover : c'.overdue = entry.overdue := hcloses'.overdue
      rw [stepEndTag, hc']
      dsimp only
      rw [hitem, hover]
      split <;> rfl
    have hguard : (endObject st.guard entry.item.2.objectKey? (!entry.overdue)).2.nextKey =
          st.guard.nextKey ∧
        ∀ key ∈ st.guard.openKeys, entry.item.2.objectKey? ≠ some key →
          key ∈ (endObject st.guard entry.item.2.objectKey? (!entry.overdue)).2.openKeys := by
      unfold endObject
      cases entry.item.2.objectKey? with
      | none => exact ⟨rfl, fun key hkey _ => hkey⟩
      | some k =>
        dsimp only
        rw [close_guard]
        refine ⟨rfl, fun key hkey hne => ?_⟩
        exact (List.mem_erase_of_ne fun heq => hne (congrArg some heq.symm)).2 hkey
    obtain ⟨hwaiting, hdescending, hopenedAt, hkeysOpen, hkeysApart⟩ :=
      h.without hnodes hlen hsettled hguard.1 hguard.2
    have hopen := Outline.openElements_close o c
    rw [Outline.add_endTag_of_some raw hc, hstep]
    refine ⟨before.map OpenEntry.delay ++ after, ?_, hrange, ?_, ?_, ?_, hwaiting, hdescending,
      hopenedAt, hkeysOpen, hkeysApart⟩
    · have hwalked := h.walked
      rw [hnodes] at hwalked
      rw [hsettled]
      cases hover : entry.overdue with
      | true =>
        have hcrossed := walked_crossed hp hf hnet hwalked he (Nat.le_refl b.length)
          entry.item.2.objectKey?
        rwa [← String.append_empty (s := text)] at hcrossed
      | false =>
        refine walked_closed hp hf hnet hwalked he ?_ ?_
        · have hbefore := h.openedAt entry hentry hover
          rwa [hnodes, ← hlen] at hbefore
        · exact fun key hsome => (h.keysOpen entry hentry key hsome).1
    · rw [hopen, List.map_append, OpenEntry.map_map_delay]
      exact hcloses.remaining
    · rw [List.map_append, OpenEntry.map_map_delay]
      exact hcloses'.remaining
    · rw [hopen, hcloses.nextNumber, h.nextNumber]
      exact hcloses'.nextNumber.symm

/-- One more piece. -/
theorem step (hp : f.policy.IgnoresPlace) (hf : f.policy.HasLocalListeners)
    (hnet : f.DeniesNetwork) (h : Crossed f o st text es) {p : Piece} (hread : p.WellRead) :
    ∃ es', Crossed f (o.add p) (f.step st p).2 (text ++ (f.step st p).1) es' := by
  cases p with
  | startTag e => exact h.startTag hp hf hnet hread
  | endTag name raw => exact h.endTag hp hf hnet name raw
  | text raw => exact ⟨es, h.leaf hp hnet rfl (by rw [visit, node]; rfl)⟩
  | comment body => exact ⟨es, h.leaf hp hnet rfl (by rw [visit, node]; rfl)⟩
  | conditionalEnd raw => exact ⟨es, h.leaf hp hnet rfl (by rw [visit, node]; rfl)⟩
  | conditionalStart e =>
    obtain ⟨name, condition, rfl, hname, -⟩ := hread
    refine ⟨es, h.leaf hp hnet rfl ?_⟩
    have htag := sameTag_decide hf { name := name, condition := some condition } none false
    rw [visit_element, judge_conditional hf _ rfl hname]
    dsimp only
    rw [walk_nil, closeElement_missing f _ _ htag.ending]
    rfl

/-- What is written for the pieces that follow makes the text that of a walk through the whole
outline. The induction is on the pieces; each of them is one step of the simulation. -/
theorem outputsFrom_eq (hp : f.policy.IgnoresPlace) (hf : f.policy.HasLocalListeners)
    (hnet : f.DeniesNetwork) {pieces : List Piece} (hpieces : ∀ p ∈ pieces, p.WellRead)
    (h : Crossed f o st text es) :
    text ++ String.join (f.outputsFrom st pieces) =
      (f.walk none {} (pieces.foldl Outline.add o).nodes.toList).text := by
  induction pieces generalizing o st text es with
  | nil =>
    rw [List.foldl_nil, ← walk_settle hf, outputsFrom, String.join_nil, String.append_empty]
    exact h.walked.1.text
  | cons p pieces ih =>
    obtain ⟨es', hstep⟩ := h.step hp hf hnet (hpieces p (List.mem_cons_self ..))
    have hrest := ih (fun q hq => hpieces q (List.mem_cons_of_mem _ hq)) hstep
    rw [outputsFrom, String.join_cons, ← String.append_assoc, List.foldl_cons]
    exact hrest

theorem empty (f : Filter) : Crossed f {} {} "" [] := by
  refine ⟨?_, trivial, .empty, .empty, rfl, by simp, .nil, by simp, by simp, .nil⟩
  have hwalk : f.walk none {} ({} : Outline).settled = {} := f.walk_nil none {}
  rw [hwalk]
  exact ⟨.refl _, ObjectGuard.internal_empty⟩

end Crossed

/-- **Where the rules do not ask for a place, the two ways of filtering agree on every text**,
however its tags cross.

*Proof sketch.* Read the text piece by piece. The text written so far is that of a walk through the
nodes read so far (`Crossed`). Every piece keeps this (`Crossed.step`): an element that waits for its
end tag contains nothing yet, and the nodes before one that is not overdue contain none but each
other. So an end tag in its place adds its own text to the end of the walk (`walk_closed`), and one
that is not changes nothing but which objects are open (`walk_crossed`). -/
theorem byTree_eq_byPiece_of_ignoresPlace (hf : f.policy.HasLocalListeners)
    (hp : f.policy.IgnoresPlace) (hnet : f.DeniesNetwork) (input : String) :
    f.byTree input = f.byPiece input := by
  have hread : ∀ p ∈ Piece.ofText input, p.WellRead := by
    rw [Piece.ofText_eq_pieces]
    exact Reader.wellRead_pieces _
  have h := (Crossed.empty f).outputsFrom_eq hp hf hnet hread
  rw [byTree_eq_walk f hf, Piece.ofDocument_eq_ofText, byPiece, outputs, Outline.ofPieces, ← h,
    String.empty_append]

/-- **The two ways of filtering agree on every text** under every policy that asks neither for end
tags nor for particular parents, with local listeners, as long as no address may use the network
freely. The baseline policy with the usual settings is such a filter. -/
theorem byTree_eq_byPiece :
    (∀ f : Filter, f.policy.HasLocalListeners → f.policy.IgnoresPlace → f.DeniesNetwork →
      ∀ input, f.byTree input = f.byPiece input) ∧
    Filter.baseline.policy.HasLocalListeners ∧ Filter.baseline.policy.IgnoresPlace ∧
      Filter.baseline.DeniesNetwork := by
  rw [policy_baseline]
  refine ⟨?_, Policy.baseline_hasLocalListeners, Policy.baseline_ignoresPlace,
    baseline_deniesNetwork⟩
  intro f hf hp hnet input
  exact byTree_eq_byPiece_of_ignoresPlace hf hp hnet input

/-- Tags that cross: the second end tag is left out. -/
theorem byTree_eq_byPiece_crossing :
    Filter.baseline.byTree "<b><i>x</b></i>" = Filter.baseline.byPiece "<b><i>x</b></i>" ∧
      Filter.baseline.byPiece "<b><i>x</b></i>" = "<b><i>x</b>" := by
  obtain ⟨hagree, hf, hp, hnet⟩ := byTree_eq_byPiece
  exact ⟨hagree Filter.baseline hf hp hnet "<b><i>x</b></i>", by decide +kernel⟩

end Filter

end MarkupFilter
