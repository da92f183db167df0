import MarkupFilter.Proofs.Filter.Spelling
import MarkupFilter.Proofs.Filter.Walking
import MarkupFilter.Proofs.Markup.OpenStack

/-!
# The parts that a filter writes

A filtered text is a row of parts, each of which is written for one piece of the input: a text, a
comment, the start tag of an element that was judged, the end tag of one that was opened. What is to
be shown of filtered texts need only be shown of these parts, whichever way the text was filtered.

## Main definitions

* `Filter.Opened` — what is remembered of an element that was judged.
* `Filter.Writes` — the text is a row of parts that the filter writes.

## Main results

* `Filter.writes_step`, `Filter.writes_byPiece` — texts filtered piece by piece.
* `Filter.writes_walk`, `Filter.writes_byTree` — texts filtered as trees.
-/

set_option autoImplicit false

namespace MarkupFilter

open Reader

namespace Filter

/-! ## Parts -/

/-- The filter remembers `x` of an element that was read and judged. -/
def Opened (f : Filter) (x : OpenedElement) : Prop :=
  ∃ (e : Element) (g : ObjectGuard) (parent? : Option String) (neverClosed : Bool),
    e.condition = none ∧ e.Shaped ∧ x = (f.judge g e parent? neverClosed).opened

/-- The text is a row of parts that the filter writes. -/
inductive Writes (f : Filter) : String → Prop where
  | nothing : Writes f ""
  | append {s t : String} (hs : Writes f s) (ht : Writes f t) : Writes f (s ++ t)
  | text (raw : String) : Writes f (renderText raw)
  | comment (body : String) : Writes f (f.renderComment body)
  | conditionalStart {e : Element} {condition : String} (hc : e.condition = some condition)
    (hcondition : IsCondition condition.toList) (d : Decision) : Writes f (f.renderStartTag e d)
  | conditionalEnd : Writes f f.renderConditionalEnd
  | startTag {e : Element} (hc : e.condition = none) (he : e.Shaped) (g : ObjectGuard)
    (parent? : Option String) (neverClosed : Bool) :
    Writes f (f.renderStartTag (f.judge g e parent? neverClosed).element
      (f.judge g e parent? neverClosed).decision)
  | endTag {x : OpenedElement} (hx : f.Opened x) (g : ObjectGuard) (inPlace : Bool) :
    Writes f (f.renderEndTag x.name x.decision (endObject g x.objectKey? inPlace).1)
  | strayEndTag {name : String} (hname : IsTagName name.toList) :
    Writes f (f.renderStrayEndTag name)

variable {f : Filter}

/-- The settings that an object was not given, with how far it may use the network. -/
def missingSettings (x : ObjectFrame) : List (SafetySetting × Networking) :=
  (SafetySetting.all.filter fun s => !x.given.contains s).map fun s => (s, x.networking)

theorem missing_eq (x : ObjectFrame) :
    x.missing = (missingSettings x).map fun p => (p.1.name, p.1.value p.2) := by
  rw [ObjectFrame.missing, missingSettings, List.map_map]
  rfl

/-- What is written before an end tag. -/
theorem exists_endObject (g : ObjectGuard) (key? : Option Nat) (inPlace : Bool) :
    ∃ settings : List (SafetySetting × Networking),
      (endObject g key? inPlace).1 = settings.map (fun p => (p.1.name, p.1.value p.2)) ∧
        (settings ≠ [] → key?.isSome = true) := by
  cases key? with
  | none => exact ⟨[], rfl, fun h => absurd rfl h⟩
  | some key =>
    have hclose : (endObject g (some key) inPlace).1 = [] ∨
        (endObject g (some key) inPlace).1 = (g.frame key).missing := by
      simp only [endObject, ObjectGuard.close]
      split
      · cases inPlace
        · exact .inl rfl
        · exact .inr rfl
      · exact .inl rfl
    rcases hclose with hnone | hmissing
    · exact ⟨[], hnone, fun _ => rfl⟩
    · exact ⟨_, hmissing.trans (missing_eq _), fun _ => rfl⟩

/-! ## Runs by piece -/

/-- The elements that wait for an end tag were judged. -/
def OpenedAll (f : Filter) (st : PieceState) : Prop :=
  ∃ es, st.openElements.Represents es ∧ ∀ x ∈ es, f.Opened x.item

/-- **A part is written for a piece**, and the elements that wait for an end tag after it were
judged. -/
theorem writes_step (hf : f.policy.HasLocalListeners) {st : PieceState} (hst : f.OpenedAll st)
    {p : Piece} (hp : p.WellRead) : f.Writes (f.step st p).1 ∧ f.OpenedAll (f.step st p).2 := by
  obtain ⟨es, hes, hopened⟩ := hst
  cases p with
  | text raw => exact ⟨.text raw, es, hes, hopened⟩
  | comment body => exact ⟨.comment body, es, hes, hopened⟩
  | conditionalEnd raw => exact ⟨.conditionalEnd, es, hes, hopened⟩
  | conditionalStart e =>
    obtain ⟨name, condition, rfl, -, hcondition⟩ := hp
    have htag := sameTag_decide hf { name := name, condition := some condition } none false
    exact ⟨.conditionalStart htag.condition hcondition _, es, hes, hopened⟩
  | startTag e =>
    refine ⟨.startTag hp.condition hp.shaped _ _ _, ?_⟩
    simp only [step, stepStartTag]
    split
    · exact ⟨es, hes, hopened⟩
    · refine ⟨_, hes.push _ _, fun x hx => ?_⟩
      rcases List.mem_cons.1 hx with rfl | hmem
      · exact ⟨e, _, _, _, hp.condition, hp.shaped, rfl⟩
      · exact hopened x hmem
  | endTag name raw =>
    rw [step, stepEndTag]
    rcases hes.close?_cases name with hnone | ⟨before, e, after, c, rfl, -, -, hc, hcloses⟩
    · rw [hnone]
      exact ⟨.strayEndTag hp, es, hes, hopened⟩
    · have hitem : f.Opened c.item := by
        rw [hcloses.item]
        exact hopened e (List.mem_append_right _ (List.mem_cons_self ..))
      have hremaining : f.OpenedAll
          ⟨c.remaining, (endObject st.guard c.item.objectKey? (!c.overdue)).2⟩ := by
        refine ⟨_, hcloses.remaining, fun x hx => ?_⟩
        rcases List.mem_append.1 hx with hmem | hmem
        · obtain ⟨y, hy, rfl⟩ := List.mem_map.1 hmem
          exact hopened y (List.mem_append_left _ hy)
        · exact hopened x (List.mem_append_right _ (List.mem_cons_of_mem _ hmem))
      rw [hc]
      dsimp only
      split
      · exact ⟨.nothing, hremaining⟩
      · exact ⟨.endTag hitem _ _, hremaining⟩

/-- Parts are written for a row of pieces. The induction is on the pieces. -/
theorem writes_outputsFrom (hf : f.policy.HasLocalListeners) {ps : List Piece}
    (hps : ∀ p ∈ ps, p.WellRead) {st : PieceState} (hst : f.OpenedAll st) :
    f.Writes (String.join (f.outputsFrom st ps)) := by
  induction ps generalizing st with
  | nil => exact .nothing
  | cons p ps ih =>
    obtain ⟨hwrites, hst'⟩ := writes_step hf hst (hps p (List.mem_cons_self ..))
    rw [outputsFrom, String.join_cons]
    exact hwrites.append (ih (fun q hq => hps q (List.mem_cons_of_mem _ hq)) hst')

/-- The text that is filtered piece by piece is a row of parts. -/
theorem writes_byPiece (hf : f.policy.HasLocalListeners) (input : String) :
    f.Writes (f.byPiece input) := by
  refine writes_outputsFrom hf ?_ ⟨[], .empty, fun _ h => by cases h⟩
  rw [Piece.ofText_eq_pieces]
  exact wellRead_pieces _

end Filter

/-! ## Outlines of what was read -/

/-- The content of a node as it was written; what has become of an element's end tag aside, which
conditional comments do not have. -/
def Content.WellRead : Content → Prop
  | .element e => e.condition = none ∧ e.Shaped ∨
      ∃ condition, e.condition = some condition ∧ e.name.toList.head? = some '<' ∧
        e.ending = .missing ∧ IsCondition condition.toList
  | .stray _ (.endTag name) => IsTagName name.toList
  | _ => True

theorem Content.WellRead.shaped {e : Element} (h : (Content.element e).WellRead)
    (hc : e.condition = none) : e.Shaped := by
  rcases h with ⟨-, hshaped⟩ | ⟨condition, hsome, -⟩
  · exact hshaped
  · rw [hc] at hsome
    cases hsome

namespace Outline

/-- The node `number` holds an element that is no conditional comment. -/
def IsTagAt (nodes : Array Outlined) (number : Nat) : Prop :=
  ∃ e extent, nodes[number]? = some ⟨.element e, extent⟩ ∧ e.condition = none

/-- The outline is one of pieces that were read. -/
structure WellRead (o : Outline) : Prop where
  content : ∀ n ∈ o.nodes, n.content.WellRead
  opened : ∃ es, o.openElements.Represents es ∧ ∀ x ∈ es, IsTagAt o.nodes x.item

/-- The end of an element changes its node only, and leaves that an element. -/
theorem wellRead_modify {nodes : Array Outlined} (h : ∀ n ∈ nodes, n.content.WellRead)
    {number : Nat} (hnumber : IsTagAt nodes number) (ending : Ending) {g : Outlined → Outlined}
    (hg : ∀ n : Outlined, (g n).content = (n.withEnding ending).content) :
    (∀ n ∈ nodes.modify number g, n.content.WellRead) ∧
      ∀ i, IsTagAt nodes i → IsTagAt (nodes.modify number g) i := by
  have hget : ∀ i, (nodes.modify number g)[i]? =
      if number = i then nodes[i]?.map g else nodes[i]? := fun i => Array.getElem?_modify ..
  have hchanged : ∀ (e : Element) (extent : Nat), (g ⟨.element e, extent⟩).content =
      .element { e with ending := ending } := fun e extent => hg ⟨.element e, extent⟩
  refine ⟨fun n hn => ?_, fun i ⟨e, extent, hi, he⟩ => ?_⟩
  · obtain ⟨i, hi⟩ := Array.mem_iff_getElem?.1 hn
    rw [hget] at hi
    split at hi
    · next heq =>
      subst heq
      obtain ⟨e, extent, hnode, he⟩ := hnumber
      rw [hnode, Option.map_some] at hi
      have hread : (Content.element e).WellRead := h _ (Array.mem_of_getElem? hnode)
      rw [← Option.some.inj hi, hchanged]
      rcases hread with ⟨-, hshaped⟩ | ⟨condition, hsome, -⟩
      · exact .inl ⟨he, hshaped.name, hshaped.attributes, hshaped.keys⟩
      · rw [he] at hsome
        cases hsome
    · exact h n (Array.mem_of_getElem? hi)
  · unfold IsTagAt
    rw [hget, hi]
    split
    · refine ⟨{ e with ending := ending }, (g ⟨.element e, extent⟩).extent, ?_, he⟩
      rw [Option.map_some, ← hchanged e extent]
    · exact ⟨e, extent, rfl, he⟩

/-- The outline is still one of pieces that were read when some elements are overdue. -/
theorem wellRead_delays {o : Outline} (h : ∀ n ∈ o.nodes, n.content.WellRead)
    {numbers : List Nat} (hnumbers : ∀ number ∈ numbers, IsTagAt o.nodes number) :
    (∀ n ∈ (numbers.foldl delay o).nodes, n.content.WellRead) ∧
      ∀ i, IsTagAt o.nodes i → IsTagAt (numbers.foldl delay o).nodes i := by
  induction numbers generalizing o with
  | nil => exact ⟨h, fun i hi => hi⟩
  | cons number numbers ih =>
    obtain ⟨hread, htags⟩ := wellRead_modify h (hnumbers number (List.mem_cons_self ..)) .overdue
      fun n => rfl
    obtain ⟨hread', htags'⟩ := ih (o := o.delay number) hread fun i hi =>
      htags i (hnumbers i (List.mem_cons_of_mem _ hi))
    exact ⟨hread', fun i hi => htags' i (htags i hi)⟩

namespace WellRead

variable {o : Outline}

theorem append (h : o.WellRead) {c : Content} (hc : c.WellRead) : (o.append c).WellRead := by
  obtain ⟨es, hes, htags⟩ := h.opened
  refine ⟨fun n hn => ?_, es, hes, fun x hx => ?_⟩
  · rcases Array.mem_push.1 hn with hmem | rfl
    · exact h.content n hmem
    · exact hc
  · obtain ⟨e, extent, hnode, he⟩ := htags x hx
    have hlt := (Array.getElem?_eq_some_iff.1 hnode).1
    refine ⟨e, extent, ?_, he⟩
    rw [Outline.append, Array.getElem?_push, if_neg (Nat.ne_of_lt hlt), hnode]

/-- An end tag that closes an element. -/
theorem close (h : o.WellRead) {name : String} {c : Closure Nat}
    (hclose : o.openElements.close? name = some c) : (o.close c).WellRead := by
  obtain ⟨es, hes, htags⟩ := h.opened
  rcases hes.close?_cases name with hnone | ⟨before, entry, after, c', rfl, -, -, hc', hcloses⟩
  · rw [hnone] at hclose
    cases hclose
  · obtain rfl : c' = c := Option.some.inj (hc'.symm.trans hclose)
    have hskipped : ∀ number ∈ c'.skipped, IsTagAt o.nodes number := by
      rw [hcloses.skipped]
      intro number hnumber
      obtain ⟨x, hx, rfl⟩ := List.mem_map.1 hnumber
      exact htags x (List.mem_append_left _ (List.mem_filter.1 hx).1)
    obtain ⟨hread, hkept⟩ :=
      wellRead_delays (o := { o with openElements := c'.remaining }) h.content hskipped
    have hitem : IsTagAt o.nodes c'.item := by
      rw [hcloses.item]
      exact htags entry (List.mem_append_right _ (List.mem_cons_self ..))
    obtain ⟨hread', hkept'⟩ := wellRead_modify hread (hkept _ hitem)
      (if c'.overdue then .crossClosed else .closed)
      (g := fun n => { n.withEnding (if c'.overdue then .crossClosed else .closed) with
        extent := (c'.skipped.foldl delay { o with openElements := c'.remaining }).nodes.size -
          (c'.item + 1) }) fun n => rfl
    refine ⟨hread', _, (openElements_close o c').symm ▸ hcloses.remaining, fun x hx => ?_⟩
    refine hkept' _ (hkept _ ?_)
    rcases List.mem_append.1 hx with hmem | hmem
    · obtain ⟨y, hy, rfl⟩ := List.mem_map.1 hmem
      exact htags y (List.mem_append_left _ hy)
    · exact htags x (List.mem_append_right _ (List.mem_cons_of_mem _ hmem))

/-- One more piece. -/
theorem add (h : o.WellRead) {p : Piece} (hp : p.WellRead) : (o.add p).WellRead := by
  cases p with
  | text raw => exact h.append trivial
  | comment body => exact h.append trivial
  | conditionalEnd raw => exact h.append trivial
  | conditionalStart e =>
    obtain ⟨name, condition, rfl, hname, hcondition⟩ := hp
    exact h.append (.inr ⟨condition, rfl, hname, rfl, hcondition⟩)
  | startTag e =>
    have happend := h.append (c := .element e) (.inl ⟨hp.condition, hp.shaped⟩)
    obtain ⟨es, hes, htags⟩ := happend.opened
    refine ⟨happend.content, ?_⟩
    rw [openElements_startTag]
    by_cases hself : e.selfClosed = true
    · rw [if_pos hself]
      exact ⟨es, hes, htags⟩
    · rw [if_neg hself]
      refine ⟨_, hes.push e.name o.nodes.size, fun x hx => ?_⟩
      rcases List.mem_cons.1 hx with rfl | hmem
      · exact ⟨e, 0, Array.getElem?_push_size .., hp.condition⟩
      · exact htags x hmem
  | endTag name raw =>
    cases hclose : o.openElements.close? name with
    | none =>
      rw [add_endTag_of_none raw hclose]
      exact h.append hp
    | some c =>
      rw [add_endTag_of_some raw hclose]
      exact h.close hclose

end WellRead

/-- The nodes of a row of pieces are as the pieces were read. -/
theorem wellRead_ofPieces {ps : List Piece} (hps : ∀ p ∈ ps, p.WellRead) :
    (ofPieces ps).WellRead := by
  have hall : ∀ (ps : List Piece) (o : Outline), (∀ p ∈ ps, p.WellRead) → o.WellRead →
      (ps.foldl Outline.add o).WellRead := by
    intro ps
    induction ps with
    | nil => exact fun o _ h => h
    | cons p ps ih =>
      intro o hps h
      exact ih _ (fun q hq => hps q (List.mem_cons_of_mem _ hq))
        (h.add (hps p (List.mem_cons_self ..)))
  exact hall ps {} hps ⟨by simp, [], .empty, by simp⟩

end Outline

/-! ## Runs through trees -/

namespace Filter

variable {f : Filter}

/-- A part is written for a node by itself. -/
theorem writes_visit_other {p : Progress} (hp : f.Writes p.text) {c : Content}
    (hc : ∀ e, c ≠ .element e) (hread : c.WellRead) : f.Writes (f.visit none p c []).text := by
  match c, hc, hread with
  | .fragment, _, _ => rwa [visit, node]
  | .text raw, _, _ =>
    rw [visit, node]
    exact hp.append (.text raw)
  | .stray raw (.endTag name), _, hname =>
    rw [visit, node]
    exact hp.append (.strayEndTag hname)
  | .stray raw .conditional, _, _ =>
    rw [visit, node]
    exact hp.append .conditionalEnd
  | .comment body, _, _ =>
    rw [visit, node]
    exact hp.append (.comment body)
  | .element e, hc, _ => exact absurd rfl (hc e)

/-- A part is written for the end of an element, or nothing. -/
theorem writes_closeElement {v : Verdict} (hv : v.element.ending = .closed → f.Opened v.opened)
    {p : Progress} (hp : f.Writes p.text) : f.Writes (f.closeElement v p).text := by
  by_cases hclosed : v.element.ending = .closed
  · rw [closeElement_closed f v p hclosed]
    exact hp.append (.endTag (hv hclosed) p.guard true)
  · rwa [text_closeElement f v p hclosed]

/-- A part is written for the start of an element, which has no end tag or was opened. -/
theorem writes_startProgress (hf : f.policy.HasLocalListeners) {e : Element}
    (hread : (Content.element e).WellRead) (parent? : Option String) (neverClosed : Bool)
    {p : Progress} (hp : f.Writes p.text) :
    let v := f.judge p.guard e parent? neverClosed
    f.Writes (f.startProgress p v).text ∧ (v.element.ending = .closed → f.Opened v.opened) := by
  dsimp only
  rcases hread with ⟨hc, he⟩ | ⟨condition, hc, hname, hending, hcondition⟩
  · exact ⟨hp.append (.startTag hc he p.guard parent? neverClosed),
      fun _ => ⟨e, p.guard, parent?, neverClosed, hc, he, rfl⟩⟩
  · have htag := sameTag_judge hf p.guard e parent? neverClosed
    refine ⟨hp.append (.conditionalStart (htag.condition.trans hc) hcondition _), fun hclosed => ?_⟩
    rw [htag.ending, hending] at hclosed
    cases hclosed

/-- **Parts are written along a walk through nodes.** The induction is on the number of nodes. -/
theorem writes_walk (hf : f.policy.HasLocalListeners) (parent? : Option String) {p : Progress}
    (hp : f.Writes p.text) {nodes : List Outlined} (hnodes : ∀ n ∈ nodes, n.content.WellRead) :
    f.Writes (f.walk parent? p nodes).text := by
  induction hn : nodes.length using Nat.strongRecOn generalizing nodes parent? p with
  | _ n ih =>
    cases nodes with
    | nil => rwa [walk_nil]
    | cons o os =>
      have hinside : (os.take o.extent).length < n := by
        rw [← hn, List.length_take, List.length_cons]
        omega
      have hafter : (os.drop o.extent).length < n := by
        rw [← hn, List.length_drop, List.length_cons]
        omega
      have hread := hnodes o (List.mem_cons_self ..)
      have hos : ∀ n ∈ os, n.content.WellRead := fun n hn => hnodes n (List.mem_cons_of_mem _ hn)
      rw [walk_cons]
      refine ih _ hafter parent? ?_ (fun n hn => hos n (List.mem_of_mem_drop hn)) rfl
      by_cases hcontent : ∃ e, o.content = .element e
      · obtain ⟨e, he⟩ := hcontent
        rw [he] at hread
        obtain ⟨hwrites, hopened⟩ := writes_startProgress hf hread parent? e.isNeverClosed hp
        rw [he, visit_element]
        refine writes_closeElement hopened ?_
        exact ih _ hinside _ hwrites (fun n hn => hos n (List.mem_of_mem_take hn)) rfl
      · have hother : ∀ e, o.content ≠ .element e := fun e he => hcontent ⟨e, he⟩
        rw [f.visit_other parent? p hother]
        exact writes_visit_other hp hother hread

/-- The text that is filtered as a tree is a row of parts. -/
theorem writes_byTree (hf : f.policy.HasLocalListeners) (input : String) :
    f.Writes (f.byTree input) := by
  have hread : ∀ p ∈ Piece.ofText input, p.WellRead := by
    rw [Piece.ofText_eq_pieces]
    exact wellRead_pieces _
  rw [byTree_eq_walk f hf, Piece.ofDocument_eq_ofText]
  refine writes_walk hf none .nothing fun n hn => ?_
  exact (Outline.wellRead_ofPieces hread).content n (Array.mem_toList_iff.1 hn)

end Filter

end MarkupFilter
