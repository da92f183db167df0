import MarkupFilter.Proofs.Markup.Forests

/-!
# Texts as rows of events

What is read in a text is a row of events: the nodes of its tree, and the end tags that close them.
There are two such rows. In the order of the pieces, an end tag stands where it was read; in the
order of the tree, the end of an element stands behind what the element contains.

## Main definitions

* `Event` — a node, or the end of one.
* `Event.contents`, `Event.ends`, `Event.timely` — the nodes of a row, the nodes that end in it, and
  the row without late ends.
* `Outline.eventsFrom`, `Piece.events` — the events in the order of the pieces.
* `Outline.treeEvents` — the events in the order of the tree.

## Main results

* `Outline.treeEvents_append`, `Outline.treeEvents_closed`, `Outline.treeEvents_crossClosed` — the
  order of the tree after one more piece.
* `Outline.follows_treeEvents` — in the order of the tree, no node ends before it is there.
-/

set_option autoImplicit false

namespace MarkupFilter

/-! ## Events -/

/-- A node of a text, or the end of an earlier one. Nodes are told apart by their numbers. -/
inductive Event where
  /-- A text, a comment, a closing construct that closes nothing, or the start of an element. -/
  | node (c : Content)
  /-- The end tag of an element, in its place. -/
  | ended (number : Nat)
  /-- The end tag of an element that is overdue. -/
  | dropped (number : Nat)
  deriving DecidableEq, Repr

namespace Event

/-- The content of a node. -/
def content? : Event → Option Content
  | .node c => some c
  | _ => none

/-- The number of the node that ends. -/
def number? : Event → Option Nat
  | .ended number => some number
  | .dropped number => some number
  | .node _ => none

/-- The event is not the end of an overdue element. -/
def inTime : Event → Bool
  | .dropped _ => false
  | _ => true

/-- The nodes of a row of events. -/
def contents (xs : List Event) : List Content :=
  xs.filterMap content?

/-- The numbers of the nodes that end in a row of events. -/
def ends (xs : List Event) : List Nat :=
  xs.filterMap number?

/-- The events but for the ends of overdue elements. -/
def timely (xs : List Event) : List Event :=
  xs.filter inTime

@[simp] theorem contents_append (xs ys : List Event) :
    contents (xs ++ ys) = contents xs ++ contents ys :=
  List.filterMap_append

@[simp] theorem ends_append (xs ys : List Event) : ends (xs ++ ys) = ends xs ++ ends ys :=
  List.filterMap_append

@[simp] theorem timely_append (xs ys : List Event) : timely (xs ++ ys) = timely xs ++ timely ys :=
  List.filter_append xs ys

@[simp] theorem contents_nil : contents [] = [] := rfl

@[simp] theorem ends_nil : ends [] = [] := rfl

@[simp] theorem timely_nil : timely [] = [] := rfl

@[simp] theorem contents_node (c : Content) (xs : List Event) :
    contents (.node c :: xs) = c :: contents xs := rfl

@[simp] theorem contents_ended (number : Nat) (xs : List Event) :
    contents (.ended number :: xs) = contents xs := rfl

@[simp] theorem contents_dropped (number : Nat) (xs : List Event) :
    contents (.dropped number :: xs) = contents xs := rfl

@[simp] theorem ends_node (c : Content) (xs : List Event) : ends (.node c :: xs) = ends xs := rfl

@[simp] theorem ends_ended (number : Nat) (xs : List Event) :
    ends (.ended number :: xs) = number :: ends xs := rfl

@[simp] theorem ends_dropped (number : Nat) (xs : List Event) :
    ends (.dropped number :: xs) = number :: ends xs := rfl

@[simp] theorem timely_dropped (number : Nat) (xs : List Event) :
    timely (.dropped number :: xs) = timely xs := rfl

theorem timely_cons {x : Event} (h : x.inTime = true) (xs : List Event) :
    timely (x :: xs) = x :: timely xs :=
  List.filter_cons_of_pos h

/-- Late ends are no nodes. -/
theorem contents_timely (xs : List Event) : contents (timely xs) = contents xs := by
  induction xs with
  | nil => rfl
  | cons x xs ih =>
    cases x with
    | dropped number => rw [timely_dropped, contents_dropped, ih]
    | node c => rw [timely_cons rfl, contents_node, contents_node, ih]
    | ended number => rw [timely_cons rfl, contents_ended, contents_ended, ih]

theorem mem_ends {xs : List Event} {number : Nat} :
    number ∈ ends xs ↔ .ended number ∈ xs ∨ .dropped number ∈ xs := by
  induction xs with
  | nil => simp
  | cons x xs ih =>
    cases x with
    | node c => simp [ih]
    | ended n => simp [ih, or_assoc]
    | dropped n => simp [ih, or_left_comm]

/-- No node ends before it is there, where `count` nodes have come before the events. -/
def Follow (count : Nat) : List Event → Prop
  | [] => True
  | .node _ :: xs => Follow (count + 1) xs
  | .ended number :: xs => number < count ∧ Follow count xs
  | .dropped number :: xs => number < count ∧ Follow count xs

theorem follow_append {count : Nat} {xs ys : List Event} :
    Follow count (xs ++ ys) ↔ Follow count xs ∧ Follow (count + (contents xs).length) ys := by
  induction xs generalizing count with
  | nil => simp [Follow]
  | cons x xs ih =>
    cases x with
    | node c =>
      rw [List.cons_append, Follow, Follow, ih, contents_node, List.length_cons,
        Nat.add_right_comm, Nat.add_assoc]
    | ended number => rw [List.cons_append, Follow, Follow, ih, contents_ended, and_assoc]
    | dropped number => rw [List.cons_append, Follow, Follow, ih, contents_dropped, and_assoc]

/-- A node that has ended is there. -/
theorem lt_of_mem_ends {count : Nat} {xs : List Event} (h : Follow count xs) {number : Nat}
    (hmem : number ∈ ends xs) : number < count + (contents xs).length := by
  induction xs generalizing count with
  | nil => cases hmem
  | cons x xs ih =>
    cases x with
    | node c =>
      have hlt := ih h hmem
      rw [contents_node, List.length_cons]
      omega
    | ended n =>
      rcases List.mem_cons.1 hmem with rfl | hmem
      · exact Nat.lt_add_right _ h.1
      · exact ih h.2 hmem
    | dropped n =>
      rcases List.mem_cons.1 hmem with rfl | hmem
      · exact Nat.lt_add_right _ h.1
      · exact ih h.2 hmem

end Event

open Event

/-! ## The order of the pieces -/

/-- The content as it was when its node was read. -/
def Content.begun : Content → Content
  | .element e => .element { e with ending := .missing }
  | c => c

namespace Outline

/-- The event that a piece is after the pieces of an outline. -/
def event (o : Outline) : Piece → Event
  | .text raw => .node (.text raw)
  | .comment body => .node (.comment body)
  | .conditionalStart e => .node (.element e)
  | .conditionalEnd raw => .node (.stray raw .conditional)
  | .startTag e => .node (.element e)
  | .endTag name raw =>
    match o.openElements.close? name with
    | some c => if c.overdue then .dropped c.item else .ended c.item
    | none => .node (.stray raw (.endTag name))

/-- The events of the pieces that follow those of an outline. -/
def eventsFrom (o : Outline) : List Piece → List Event
  | [] => []
  | p :: ps => o.event p :: (o.add p).eventsFrom ps

theorem eventsFrom_append (o : Outline) (ps qs : List Piece) :
    o.eventsFrom (ps ++ qs) = o.eventsFrom ps ++ (ps.foldl add o).eventsFrom qs := by
  induction ps generalizing o with
  | nil => rfl
  | cons p ps ih => rw [List.cons_append, eventsFrom, eventsFrom, ih, List.cons_append,
      List.foldl_cons]

end Outline

/-- The events of a row of pieces, in their order. -/
def Piece.events (ps : List Piece) : List Event :=
  ({} : Outline).eventsFrom ps

theorem Piece.events_append_singleton (ps : List Piece) (p : Piece) :
    events (ps ++ [p]) = events ps ++ [(Outline.ofPieces ps).event p] :=
  Outline.eventsFrom_append {} ps [p]

/-! ## The order of the tree -/

namespace Outline

/-- What becomes of the node `number` behind everything that it contains. -/
def endEvents (number : Nat) : Content → List Event
  | .element e =>
    match e.ending with
    | .closed => [.ended number]
    | .crossClosed => [.dropped number]
    | _ => []
  | _ => []

/-- The events of a list of nodes in the order of their tree, where the first node has the number
`start`. -/
def treeEvents (start : Nat) : List Outlined → List Event
  | [] => []
  | o :: os =>
    .node o.content.begun ::
      (treeEvents (start + 1) (os.take o.extent) ++ endEvents start o.content ++
        treeEvents (start + 1 + (os.take o.extent).length) (os.drop o.extent))
termination_by os => os.length

@[simp] theorem treeEvents_nil (start : Nat) : treeEvents start [] = [] := by
  rw [treeEvents]

theorem treeEvents_cons (start : Nat) (o : Outlined) (os : List Outlined) :
    treeEvents start (o :: os) = .node o.content.begun ::
      (treeEvents (start + 1) (os.take o.extent) ++ endEvents start o.content ++
        treeEvents (start + 1 + (os.take o.extent).length) (os.drop o.extent)) := by
  rw [treeEvents]

/-- The events of the node `number` with what it contains. -/
def nodeEvents (number : Nat) (c : Content) (inside : List Outlined) : List Event :=
  .node c.begun :: (treeEvents (number + 1) inside ++ endEvents number c)

theorem treeEvents_eq (start : Nat) (o : Outlined) (os : List Outlined) :
    treeEvents start (o :: os) = nodeEvents start o.content (os.take o.extent) ++
      treeEvents (start + 1 + (os.take o.extent).length) (os.drop o.extent) :=
  treeEvents_cons start o os

/-- The parts of a list of nodes are shorter than the list. -/
theorem length_parts {o : Outlined} {os : List Outlined} {n : Nat} (h : (o :: os).length = n) :
    (os.take o.extent).length < n ∧ (os.drop o.extent).length < n := by
  rw [List.length_cons] at h
  rw [List.length_take, List.length_drop]
  omega

/-- The events of two stretches of nodes, of which the first is closed in itself. -/
theorem treeEvents_append {xs : List Outlined} (ys : List Outlined) (h : InRange xs) (start : Nat) :
    treeEvents start (xs ++ ys) = treeEvents start xs ++ treeEvents (start + xs.length) ys := by
  induction hn : xs.length using Nat.strongRecOn generalizing xs start with
  | _ n ih =>
    cases xs with
    | nil =>
      subst hn
      rw [treeEvents_nil, List.nil_append, List.nil_append, List.length_nil, Nat.add_zero]
    | cons o os =>
      have hle : o.extent ≤ os.length := h.1
      have hrest := ih _ (length_parts hn).2 (h.2.drop _)
        (start + 1 + (os.take o.extent).length) rfl
      have hcount : start + 1 + (os.take o.extent).length + (os.drop o.extent).length =
          start + n := by
        rw [List.length_take, List.length_drop, ← hn, List.length_cons]
        omega
      rw [List.cons_append, treeEvents_cons, treeEvents_cons, List.take_append_of_le_length hle,
        List.drop_append_of_le_length hle, hrest, hcount]
      simp only [List.append_assoc, List.cons_append]

/-- It does not count for the events whether end tags are overdue. -/
theorem treeEvents_settle (nodes : List Outlined) (start : Nat) :
    treeEvents start (nodes.map Outlined.settle) = treeEvents start nodes := by
  induction hn : nodes.length using Nat.strongRecOn generalizing nodes start with
  | _ n ih =>
    cases nodes with
    | nil => rfl
    | cons o os =>
      have hcontent : o.settle.content.begun = o.content.begun ∧
          endEvents start o.settle.content = endEvents start o.content := by
        obtain ⟨content, extent⟩ := o
        cases content with
        | element e =>
          by_cases hover : e.ending = .overdue
          · simp [Outlined.settle, Outlined.withEnding, hover, Content.begun, endEvents]
          · simp [Outlined.settle, hover]
        | _ => exact ⟨rfl, rfl⟩
      rw [List.map_cons, treeEvents_cons, treeEvents_cons, Outlined.extent_settle, hcontent.1,
        hcontent.2, ← List.map_take, ← List.map_drop, List.length_map,
        ih _ (length_parts hn).1 _ _ rfl, ih _ (length_parts hn).2 _ _ rfl]

theorem contents_endEvents (number : Nat) (c : Content) : contents (endEvents number c) = [] := by
  unfold endEvents
  split
  · split <;> rfl
  · rfl

/-- The nodes among the events are those of the list. -/
theorem contents_treeEvents (nodes : List Outlined) (start : Nat) :
    contents (treeEvents start nodes) = nodes.map fun o => o.content.begun := by
  induction hn : nodes.length using Nat.strongRecOn generalizing nodes start with
  | _ n ih =>
    cases nodes with
    | nil => rw [treeEvents_nil, contents_nil, List.map_nil]
    | cons o os =>
      rw [treeEvents_cons, contents_node, contents_append, contents_append, contents_endEvents,
        List.append_nil,
        ih _ (length_parts hn).1 _ _ rfl, ih _ (length_parts hn).2 _ _ rfl, ← List.map_append,
        List.take_append_drop, List.map_cons]

/-- **In the order of the tree, no node ends before it is there.** -/
theorem follow_treeEvents (nodes : List Outlined) (start : Nat) :
    Follow start (treeEvents start nodes) := by
  induction hn : nodes.length using Nat.strongRecOn generalizing nodes start with
  | _ n ih =>
    cases nodes with
    | nil =>
      rw [treeEvents_nil]
      trivial
    | cons o os =>
      have hend : ∀ count, start < count → Follow count (endEvents start o.content) := by
        intro count hlt
        unfold endEvents
        split
        · split <;> simp [Follow, hlt]
        · trivial
      have hlength : (contents (treeEvents (start + 1) (os.take o.extent))).length =
          (os.take o.extent).length := by
        rw [contents_treeEvents, List.length_map]
      have hended := hend (start + 1 + (os.take o.extent).length) (by omega)
      rw [treeEvents_cons, Follow, follow_append, follow_append, contents_append, List.length_append,
        hlength, contents_endEvents, List.length_nil, Nat.add_zero]
      exact ⟨⟨ih _ (length_parts hn).1 _ _ rfl, hended⟩, ih _ (length_parts hn).2 _ _ rfl⟩

/-- Of a list of nodes only elements contain others. -/
def OnlyElementsContain (nodes : List Outlined) : Prop :=
  ∀ o ∈ nodes, o.extent ≠ 0 → ∃ e, o.content = .element e

theorem OnlyElementsContain.append {nodes : List Outlined} (h : OnlyElementsContain nodes)
    (c : Content) : OnlyElementsContain (nodes ++ [⟨c, 0⟩]) := by
  intro o ho hextent
  rcases List.mem_append.1 ho with hmem | hmem
  · exact h o hmem hextent
  · rw [List.mem_singleton.1 hmem] at hextent
    exact absurd rfl hextent

theorem OnlyElementsContain.replace {a b : List Outlined} {x : Outlined}
    (h : OnlyElementsContain (a ++ x :: b)) (e : Element) (extent : Nat) :
    OnlyElementsContain (a ++ ⟨.element e, extent⟩ :: b) := by
  intro o ho hextent
  rcases List.mem_append.1 ho with hmem | hmem
  · exact h o (List.mem_append_left _ hmem) hextent
  · rcases List.mem_cons.1 hmem with rfl | hmem
    · exact ⟨e, rfl⟩
    · exact h o (List.mem_append_right _ (List.mem_cons_of_mem _ hmem)) hextent

theorem OnlyElementsContain.of_settle {nodes : List Outlined}
    (h : OnlyElementsContain (nodes.map Outlined.settle)) : OnlyElementsContain nodes := by
  intro o ho hextent
  obtain ⟨e, he⟩ := h o.settle (List.mem_map_of_mem ho) (by rwa [Outlined.extent_settle])
  obtain ⟨content, extent⟩ := o
  cases content with
  | element e => exact ⟨e, rfl⟩
  | _ => cases he

/-! ### One more piece -/

/-- An element that waits for its end tag. -/
theorem treeEvents_waiting {e : Element} (he : e.ending = .missing) (b : List Outlined)
    (start : Nat) :
    treeEvents start (⟨.element e, 0⟩ :: b) = .node (.element e) :: treeEvents (start + 1) b := by
  have hbegun : (Content.element e).begun = .element e := by
    rw [Content.begun, ← he]
  rw [treeEvents_cons, hbegun]
  simp [endEvents, he]

/-- An element of which the end tag was read contains all that follows it. -/
theorem treeEvents_ended {e : Element} (he : e.ending = .missing) (ending : Ending)
    {b : List Outlined} {k : Nat} (hk : b.length ≤ k) (start : Nat) :
    treeEvents start (⟨.element { e with ending := ending }, k⟩ :: b) =
      .node (.element e) ::
        (treeEvents (start + 1) b ++ endEvents start (.element { e with ending := ending })) := by
  have hbegun : (Content.element { e with ending := ending }).begun = .element e := by
    rw [Content.begun, ← he]
  rw [treeEvents_cons, hbegun]
  dsimp only
  rw [List.take_of_length_le hk, List.drop_eq_nil_of_le hk, treeEvents_nil, List.append_nil]

/-- **An end tag in its place** comes behind everything that was read before. -/
theorem treeEvents_closed {e : Element} (he : e.ending = .missing) {a : List Outlined}
    (ha : InRange a) (b : List Outlined) :
    treeEvents 0 (a ++ ⟨.element { e with ending := .closed }, b.length⟩ :: b) =
      treeEvents 0 (a ++ ⟨.element e, 0⟩ :: b) ++ [.ended a.length] := by
  rw [treeEvents_append _ ha, treeEvents_append _ ha, treeEvents_ended he _ (Nat.le_refl _),
    treeEvents_waiting he, Nat.zero_add, endEvents, List.append_assoc, List.cons_append]

/-- **An end tag that is overdue** comes somewhere among what was read before: behind as much of it
as the element around contains.

*Proof sketch.* By induction on the number of nodes before the element. If the first of them does
not reach to the element, this is about the nodes after those inside it. If it does, the element
stands inside it. -/
theorem treeEvents_crossClosed {e : Element} (he : e.ending = .missing) (a b : List Outlined)
    {k : Nat} (hk : b.length ≤ k) (start : Nat) :
    ∃ xs ys, treeEvents start (a ++ ⟨.element e, 0⟩ :: b) = xs ++ ys ∧
      treeEvents start (a ++ ⟨.element { e with ending := .crossClosed }, k⟩ :: b) =
        xs ++ .dropped (start + a.length) :: ys := by
  induction hn : a.length using Nat.strongRecOn generalizing a b start with
  | _ n ih =>
    cases a with
    | nil =>
      subst hn
      refine ⟨.node (.element e) :: treeEvents (start + 1) b, [], ?_, ?_⟩
      · rw [List.nil_append, treeEvents_waiting he, List.append_nil]
      · rw [List.nil_append, treeEvents_ended he _ hk]
        rfl
    | cons o os =>
      rw [List.length_cons] at hn
      rw [List.cons_append, List.cons_append, treeEvents_cons, treeEvents_cons]
      by_cases hext : o.extent ≤ os.length
      · have hshort : (os.drop o.extent).length < n := by
          rw [List.length_drop]
          omega
        obtain ⟨xs, ys, hwait, hdrop⟩ := ih _ hshort (os.drop o.extent) b hk
          (start + 1 + (os.take o.extent).length) rfl
        have hnumber : start + 1 + (os.take o.extent).length + (os.drop o.extent).length =
            start + n := by
          rw [List.length_take, List.length_drop]
          omega
        rw [List.take_append_of_le_length hext, List.take_append_of_le_length hext,
          List.drop_append_of_le_length hext, List.drop_append_of_le_length hext, hwait, hdrop,
          hnumber]
        exact ⟨.node o.content.begun :: (treeEvents (start + 1) (os.take o.extent) ++
          endEvents start o.content ++ xs), ys, by simp, by simp⟩
      · obtain ⟨m, hm⟩ : ∃ m, o.extent = os.length + (m + 1) :=
          ⟨o.extent - os.length - 1, by omega⟩
        have hcut : ∀ x : Outlined, (os ++ x :: b).take o.extent = os ++ x :: b.take m ∧
            (os ++ x :: b).drop o.extent = b.drop m := by
          intro x
          rw [hm, List.take_length_add_append, List.drop_length_add_append, List.take_succ_cons,
            List.drop_succ_cons]
          exact ⟨rfl, rfl⟩
        obtain ⟨xs, ys, hwait, hdrop⟩ := ih os.length (by omega) os (b.take m)
          (by rw [List.length_take]; omega) (start + 1) rfl
        have hnumber : start + 1 + os.length = start + n := by omega
        rw [(hcut _).1, (hcut _).1, (hcut _).2, (hcut _).2, hwait, hdrop, hnumber]
        simp only [List.length_append, List.length_cons]
        exact ⟨.node o.content.begun :: xs, ys ++ endEvents start o.content ++
          treeEvents (start + 1 + (os.length + ((b.take m).length + 1))) (b.drop m),
          by simp, by simp⟩

end Outline

end MarkupFilter
