import MarkupFilter.Proofs.Markup.Events
import MarkupFilter.Proofs.Markup.OpenStack
import MarkupFilter.Proofs.Markup.Shape
import Mathlib.Data.List.Induction

/-!
# End tags that come late

The events of a text in the order of its tree are those in the order of its pieces, but that the end
of an overdue element comes sooner: the tree is complete before it is walked through, and an element
reaches no further than the one around it. In both orders an element ends once, and an end tag in
its place closes the innermost open element of its name.

## Main definitions

* `Event.Ahead` — late ends come sooner in one row of events than in the other.
* `Event.IsInnermost`, `Event.Orderly` — what both rows have in common.
* `Piece.Stands` — the open elements of the outline that was read so far.

## Main results

* `Event.Ahead.split` — what has come before an event in the two rows.
* `Piece.exists_stands` — the invariant along the pieces.
* `Piece.ahead_treeEvents`, `Piece.orderly_events`, `Piece.orderly_treeEvents` — the events of a
  text.
-/

set_option autoImplicit false

namespace MarkupFilter

open OpenElements (Represents)

namespace Event

/-! ## Two rows of events -/

/-- The events `xs` are the events `ys`, but that the ends of overdue elements may come sooner. -/
inductive Ahead : List Event → List Event → Prop where
  | nil : Ahead [] []
  | both {xs ys : List Event} (x : Event) : Ahead xs ys → Ahead (xs ++ [x]) (ys ++ [x])
  | sooner {xs xs' ys : List Event} (number : Nat) : Ahead (xs ++ xs') ys →
    Ahead (xs ++ .dropped number :: xs') (ys ++ [.dropped number])

/-- An event of a row with one more at the end is that one or one of the others. -/
theorem split_append_singleton {xs before after : List Event} {x y : Event}
    (h : xs ++ [y] = before ++ x :: after) :
    (∃ after', after = after' ++ [y] ∧ xs = before ++ x :: after') ∨
      xs = before ∧ y = x ∧ after = [] := by
  rcases List.eq_nil_or_concat after with rfl | ⟨after', z, rfl⟩
  · obtain ⟨hxs, hy⟩ := List.append_inj' h rfl
    exact .inr ⟨hxs, List.singleton_inj.1 hy, rfl⟩
  · rw [List.concat_eq_append, ← List.cons_append, ← List.append_assoc] at h
    obtain ⟨hxs, hy⟩ := List.append_inj' h rfl
    obtain rfl := List.singleton_inj.1 hy
    exact .inl ⟨after', List.concat_eq_append, hxs⟩

namespace Ahead

/-- The rows have the same events. -/
theorem perm {xs ys : List Event} (h : Ahead xs ys) : xs.Perm ys := by
  induction h with
  | nil => exact .nil
  | both x _ ih => exact ih.append_right [x]
  | @sooner xs xs' ys number _ ih =>
    exact List.perm_middle.trans ((ih.cons _).trans (List.perm_append_singleton _ _).symm)

/-- But for late ends, the rows are the same. -/
theorem timely_eq {xs ys : List Event} (h : Ahead xs ys) : timely xs = timely ys := by
  induction h with
  | nil => rfl
  | both x _ ih => rw [timely_append, timely_append, ih]
  | @sooner xs xs' ys number _ ih =>
    rw [timely_append, timely_dropped, ← timely_append, ih, timely_append]
    exact (List.append_nil _).symm

/-- **Before an event of the first row** stand the same events as before it in the second one, and
perhaps some ends of overdue elements more. -/
theorem split {xs ys : List Event} (h : Ahead xs ys) {before after : List Event} {x : Event}
    (hx : x.inTime = true) (hxs : xs = before ++ x :: after) :
    ∃ before' after', ys = before' ++ x :: after' ∧ timely before' = timely before ∧
      ∀ number, .dropped number ∈ before' → .dropped number ∈ before := by
  induction h generalizing before after with
  | nil => simp at hxs
  | @both xs ys y h ih =>
    rcases split_append_singleton hxs with ⟨after', rfl, hsplit⟩ | ⟨rfl, rfl, rfl⟩
    · obtain ⟨before', after'', rfl, htimely, hdropped⟩ := ih hsplit
      exact ⟨before', after'' ++ [y], by simp, htimely, hdropped⟩
    · exact ⟨ys, [], rfl, h.timely_eq.symm, fun number hmem => h.perm.mem_iff.2 hmem⟩
  | @sooner us vs ys number h ih =>
    rcases List.append_eq_append_iff.1 hxs with ⟨vs', rfl, hvs⟩ | ⟨us', rfl, hus⟩
    · -- the event stands behind the end that has come sooner
      cases vs' with
      | nil =>
        injection hvs with hdropped
        rw [← hdropped] at hx
        cases hx
      | cons v vs' =>
        injection hvs with hdropped hvs
        subst hdropped
        have hsplit : us ++ vs = (us ++ vs') ++ x :: after := by
          rw [List.append_assoc, hvs]
          rfl
        obtain ⟨before', after', rfl, htimely, hmem⟩ := ih hsplit
        refine ⟨before', after' ++ [.dropped number], by simp, ?_, fun k hk => ?_⟩
        · rw [htimely, timely_append, timely_append, timely_dropped]
        · rcases List.mem_append.1 (hmem k hk) with hmem | hmem
          · exact List.mem_append_left _ hmem
          · exact List.mem_append_right _ (List.mem_cons_of_mem _ hmem)
    · cases us' with
      | nil =>
        injection hus with hdropped
        rw [hdropped] at hx
        cases hx
      | cons u us' =>
        injection hus with heq hus
        subst heq
        have hsplit : before ++ x :: us' ++ vs = before ++ x :: (us' ++ vs) := by simp
        obtain ⟨before', after', rfl, htimely, hmem⟩ := ih hsplit
        exact ⟨before', after' ++ [.dropped number], by simp, htimely, hmem⟩

end Ahead

/-! ## Rows in order -/

/-- The node of an element that waits for an end tag once its start tag is read. -/
def Waits (e : Element) : Prop :=
  e.condition = none ∧ e.selfClosed = false

/-- After these events, the innermost element of its name that waits is the node `number`: whatever
of the same name was opened since has ended. -/
def IsInnermost (xs : List Event) (number : Nat) : Prop :=
  ∃ e, (contents xs)[number]? = some (.element e) ∧ Waits e ∧
    ∀ n e', number < n → (contents xs)[n]? = some (.element e') → Waits e' →
      AsciiCase.lower e'.name = AsciiCase.lower e.name → n ∈ ends xs

/-- A node ends after it is there, and only once; and an end tag in its place closes the innermost
element of its name. -/
structure Orderly (xs : List Event) : Prop where
  follow : Follow 0 xs
  once : (ends xs).Nodup
  innermost : ∀ before after number, xs = before ++ .ended number :: after →
    IsInnermost before number

theorem Orderly.node {xs : List Event} (h : Orderly xs) (c : Content) :
    Orderly (xs ++ [.node c]) := by
  refine ⟨follow_append.2 ⟨h.follow, trivial⟩, ?_, fun before after number hsplit => ?_⟩
  · rw [ends_append, ends_node, ends_nil, List.append_nil]
    exact h.once
  · rcases split_append_singleton hsplit with ⟨after', -, hxs⟩ | ⟨-, heq, -⟩
    · exact h.innermost before after' number hxs
    · cases heq

/-- One more end. -/
theorem Orderly.end {xs : List Event} (h : Orderly xs) {x : Event} {number : Nat}
    (hx : x.number? = some number) (hlt : number < (contents xs).length)
    (hnew : number ∉ ends xs) (hinner : x = .ended number → IsInnermost xs number) :
    Orderly (xs ++ [x]) := by
  have hends : ends [x] = [number] := by simp [ends, hx]
  refine ⟨follow_append.2 ⟨h.follow, ?_⟩, ?_, fun before after n hsplit => ?_⟩
  · rw [Nat.zero_add]
    cases x with
    | node c => trivial
    | ended n =>
      obtain rfl := Option.some.inj hx
      exact ⟨hlt, trivial⟩
    | dropped n =>
      obtain rfl := Option.some.inj hx
      exact ⟨hlt, trivial⟩
  · rw [ends_append, hends, List.nodup_append]
    refine ⟨h.once, by simp, fun a ha b hb => ?_⟩
    rw [List.mem_singleton.1 hb]
    exact fun heq => hnew (heq ▸ ha)
  · rcases split_append_singleton hsplit with ⟨after', -, hxs⟩ | ⟨rfl, rfl, -⟩
    · exact h.innermost before after' n hxs
    · obtain rfl := Option.some.inj hx
      exact hinner rfl

/-- Ends that come sooner keep the order, as long as they come behind their nodes. -/
theorem Ahead.orderly {xs ys : List Event} (h : Ahead xs ys) (hys : Orderly ys)
    (hfollow : Follow 0 xs) : Orderly xs := by
  refine ⟨hfollow, ?_, fun before after number hsplit => ?_⟩
  · exact (h.perm.filterMap number?).nodup_iff.2 hys.once
  · obtain ⟨before', after', rfl, htimely, hdropped⟩ := h.split rfl hsplit
    have hcontents : contents before' = contents before := by
      rw [← contents_timely, htimely, contents_timely]
    have hsub : ∀ n ∈ ends before', n ∈ ends before := by
      intro n hn
      rw [mem_ends] at hn ⊢
      refine hn.imp (fun hmem => ?_) (hdropped n)
      have hended : Event.ended n ∈ timely before' := List.mem_filter.2 ⟨hmem, rfl⟩
      rw [htimely] at hended
      exact (List.mem_filter.1 hended).1
    obtain ⟨e, he, hwaits, hinner⟩ := hys.innermost before' after' number rfl
    rw [hcontents] at he hinner
    exact ⟨e, he, hwaits, fun n e' hlt he' hwaits' hname =>
      hsub n (hinner n e' hlt he' hwaits' hname)⟩

end Event

open Event

/-! ## Along the pieces -/

namespace Piece

/-- The node of an open element waits for its end tag, and has the name of the element. -/
def WaitsAs (nodes : List Outlined) (x : OpenEntry Nat) : Prop :=
  ∃ e : Element, nodes[x.item]? = some ⟨.element e, 0⟩ ∧ e.ending = .missing ∧ Waits e ∧
    x.key = AsciiCase.lower e.name

/-- The open elements after some pieces: they wait in the outline, and have not ended so far. -/
structure Stands (ps : List Piece) (es : List (OpenEntry Nat)) : Prop where
  ahead : Ahead (Outline.treeEvents 0 (Outline.ofPieces ps).settled) (events ps)
  orderly : Orderly (events ps)
  range : Outline.InRange (Outline.ofPieces ps).settled
  leaves : Outline.OnlyElementsContain (Outline.ofPieces ps).settled
  opened : (Outline.ofPieces ps).openElements.Represents es
  waiting : ∀ x ∈ es, WaitsAs (Outline.ofPieces ps).settled x
  descending : es.Pairwise fun x y => y.item < x.item
  inTime : ∀ x ∈ es, x.overdue = false →
    Outline.InRange ((Outline.ofPieces ps).settled.take x.item)
  open_of_waits : ∀ n e, (contents (events ps))[n]? = some (.element e) → Waits e →
    n ∉ ends (events ps) → ∃ x ∈ es, x.item = n
  unended : ∀ x ∈ es, x.item ∉ ends (events ps)

theorem ofPieces_append_singleton (ps : List Piece) (p : Piece) :
    Outline.ofPieces (ps ++ [p]) = (Outline.ofPieces ps).add p :=
  List.foldl_append

namespace Stands

variable {ps : List Piece} {es : List (OpenEntry Nat)}

theorem empty : Stands [] [] := by
  have htree : Outline.treeEvents 0 (Outline.ofPieces []).settled = [] := Outline.treeEvents_nil 0
  refine ⟨?_, ⟨trivial, List.nodup_nil, ?_⟩, trivial, (fun _ h => nomatch h), .empty, by simp, .nil,
    by simp, ?_, by simp⟩
  · rw [htree]
    exact .nil
  · intro before after m h
    cases before <;> cases h
  · intro n e h
    cases h

/-- The nodes among the events are those of the outline. -/
theorem contents_events (h : Stands ps es) :
    contents (events ps) = (Outline.ofPieces ps).settled.map fun o => o.content.begun := by
  rw [← contents_timely, ← h.ahead.timely_eq, contents_timely, Outline.contents_treeEvents]

theorem item_lt (h : Stands ps es) {x : OpenEntry Nat} (hx : x ∈ es) :
    x.item < (Outline.ofPieces ps).settled.length := by
  obtain ⟨e, hnode, -⟩ := h.waiting x hx
  exact (List.getElem?_eq_some_iff.1 hnode).1

/-! ### One more node -/

section Node

variable {p : Piece} {c : Content}

/-- The events after a piece that is a node. -/
theorem events_node (hevent : (Outline.ofPieces ps).event p = .node c) :
    events (ps ++ [p]) = events ps ++ [.node c] ∧ ends (events (ps ++ [p])) = ends (events ps) := by
  have hevents : events (ps ++ [p]) = events ps ++ [.node c] := by
    rw [events_append_singleton, hevent]
  rw [hevents, ends_append, ends_node, ends_nil, List.append_nil]
  exact ⟨rfl, rfl⟩

theorem ahead_node (h : Stands ps es) (hevent : (Outline.ofPieces ps).event p = .node c)
    (hbegun : c.begun = c) :
    Ahead (Outline.treeEvents 0 ((Outline.ofPieces ps).settled ++ [⟨c, 0⟩]))
      (events (ps ++ [p])) := by
  have hend : ∀ number, Outline.endEvents number c = [] := by
    intro number
    rw [← hbegun]
    cases c <;> rfl
  rw [(events_node hevent).1, Outline.treeEvents_append _ h.range, Outline.treeEvents_cons, hbegun,
    hend, List.take_nil, List.drop_nil, Outline.treeEvents_nil, Outline.treeEvents_nil]
  exact h.ahead.both _

/-- What was known of the open elements is still true. -/
theorem old_node (h : Stands ps es) (c : Content) {x : OpenEntry Nat} (hx : x ∈ es) :
    WaitsAs ((Outline.ofPieces ps).settled ++ [⟨c, 0⟩]) x ∧
      (x.overdue = false → Outline.InRange
        (((Outline.ofPieces ps).settled ++ [(⟨c, 0⟩ : Outlined)]).take x.item)) := by
  have hlt := h.item_lt hx
  obtain ⟨e, hnode, he⟩ := h.waiting x hx
  refine ⟨⟨e, by rw [List.getElem?_append_left hlt, hnode], he⟩, fun hover => ?_⟩
  rw [List.take_append_of_le_length (Nat.le_of_lt hlt)]
  exact h.inTime x hx hover

/-- The elements that wait among the nodes are those from before, and perhaps the new one. -/
theorem waits_node (h : Stands ps es) (hevent : (Outline.ofPieces ps).event p = .node c) {n : Nat}
    {e : Element} (hn : (contents (events (ps ++ [p])))[n]? = some (.element e)) (he : Waits e)
    (hends : n ∉ ends (events (ps ++ [p]))) :
    (∃ x ∈ es, x.item = n) ∨ c = .element e ∧ n = (Outline.ofPieces ps).nodes.size := by
  have hlength : (contents (events ps)).length = (Outline.ofPieces ps).nodes.size := by
    rw [h.contents_events, List.length_map, Outline.length_settled]
  obtain ⟨hevents, hsame⟩ := events_node hevent
  rw [hsame] at hends
  rw [hevents, contents_append, List.getElem?_append] at hn
  split at hn
  · exact .inl (h.open_of_waits n e hn he hends)
  · next hge =>
    obtain ⟨hlt, hc⟩ := List.getElem?_eq_some_iff.1 hn
    have hzero : n - (contents (events ps)).length = 0 := Nat.lt_one_iff.1 hlt
    simp only [hzero] at hc
    exact .inr ⟨hc, by omega⟩

/-- A piece that is a node by itself. -/
theorem leaf (h : Stands ps es) (hevent : (Outline.ofPieces ps).event p = .node c)
    (hadd : (Outline.ofPieces ps).add p = (Outline.ofPieces ps).append c)
    (hsettle : Outlined.settle ⟨c, 0⟩ = ⟨c, 0⟩) (hbegun : c.begun = c)
    (hwaits : ∀ e, c = .element e → ¬ Waits e) : Stands (ps ++ [p]) es := by
  obtain ⟨hevents, hends⟩ := events_node hevent
  have hsettled : (Outline.ofPieces (ps ++ [p])).settled =
      (Outline.ofPieces ps).settled ++ [⟨c, 0⟩] := by
    rw [ofPieces_append_singleton, hadd, Outline.settled_append hsettle]
  refine ⟨?_, ?_, ?_, ?_, ?_, ?_, h.descending, ?_, ?_, ?_⟩
  · rw [hsettled]
    exact h.ahead_node hevent hbegun
  · rw [hevents]
    exact h.orderly.node c
  · rw [hsettled]
    exact h.range.append ⟨Nat.le_refl _, trivial⟩
  · rw [hsettled]
    exact h.leaves.append _
  · rw [ofPieces_append_singleton, hadd]
    exact h.opened
  · rw [hsettled]
    exact fun x hx => (h.old_node c hx).1
  · rw [hsettled]
    exact fun x hx => (h.old_node c hx).2
  · intro n e hn he hnot
    rcases h.waits_node hevent hn he hnot with hold | ⟨hc, -⟩
    · exact hold
    · exact absurd he (hwaits e hc)
  · rw [hends]
    exact h.unended

/-- The start tag of an element that waits for its end tag. -/
theorem push (h : Stands ps es) {e : Element} (he : e.ending = .missing) (hwaits : Waits e) :
    Stands (ps ++ [.startTag e]) (⟨(Outline.ofPieces ps).openElements.nextNumber,
      AsciiCase.lower e.name, false, (Outline.ofPieces ps).nodes.size⟩ :: es) := by
  have hevent : (Outline.ofPieces ps).event (.startTag e) = .node (.element e) := rfl
  obtain ⟨hevents, hends⟩ := events_node hevent
  have hlength := (Outline.ofPieces ps).length_settled
  have hsettled : (Outline.ofPieces (ps ++ [.startTag e])).settled =
      (Outline.ofPieces ps).settled ++ [⟨.element e, 0⟩] := by
    rw [ofPieces_append_singleton]
    refine Outline.settled_append (o := Outline.ofPieces ps) ?_
    simp only [Outlined.settle, he]
    rfl
  have hbegun : (Content.element e).begun = .element e := by
    rw [Content.begun, ← he]
  refine ⟨?_, ?_, ?_, ?_, ?_, ?_, ?_, ?_, ?_, ?_⟩
  · rw [hsettled]
    exact h.ahead_node hevent hbegun
  · rw [hevents]
    exact h.orderly.node _
  · rw [hsettled]
    exact h.range.append ⟨Nat.le_refl _, trivial⟩
  · rw [hsettled]
    exact h.leaves.append _
  · rw [ofPieces_append_singleton, Outline.openElements_startTag, hwaits.2]
    exact h.opened.push e.name _
  · rw [hsettled]
    intro x hx
    rcases List.mem_cons.1 hx with rfl | hmem
    · exact ⟨e, by rw [← hlength, List.getElem?_concat_length], he, hwaits, rfl⟩
    · exact (h.old_node _ hmem).1
  · refine List.pairwise_cons.2 ⟨fun x hx => ?_, h.descending⟩
    exact hlength ▸ h.item_lt hx
  · rw [hsettled]
    intro x hx
    rcases List.mem_cons.1 hx with rfl | hmem
    · rw [← hlength, List.take_left]
      exact fun _ => h.range
    · exact (h.old_node _ hmem).2
  · intro n e' hn he' hnot
    rcases h.waits_node hevent hn he' hnot with ⟨x, hx, hitem⟩ | ⟨-, hitem⟩
    · exact ⟨x, List.mem_cons_of_mem _ hx, hitem⟩
    · exact ⟨_, List.mem_cons_self .., hitem.symm⟩
  · rw [hends]
    intro x hx
    rcases List.mem_cons.1 hx with rfl | hmem
    · intro hended
      have hlt := lt_of_mem_ends h.orderly.follow hended
      rw [h.contents_events, List.length_map, hlength, Nat.zero_add] at hlt
      exact Nat.lt_irrefl _ hlt
    · exact h.unended x hmem

end Node

/-! ### One more end -/

/-- The nodes around an open element. -/
theorem split (h : Stands ps es) {x : OpenEntry Nat} (hx : x ∈ es) :
    ∃ (e : Element) (a b : List Outlined),
      (Outline.ofPieces ps).settled = a ++ ⟨.element e, 0⟩ :: b ∧ a.length = x.item ∧
        e.ending = .missing ∧ Waits e ∧ x.key = AsciiCase.lower e.name ∧
        (contents (events ps))[x.item]? = some (.element e) := by
  obtain ⟨e, hnode, he, hwaits, hkey⟩ := h.waiting x hx
  obtain ⟨hlt, hget⟩ := List.getElem?_eq_some_iff.1 hnode
  refine ⟨e, (Outline.ofPieces ps).settled.take x.item,
    (Outline.ofPieces ps).settled.drop (x.item + 1), ?_, ?_, he, hwaits, hkey, ?_⟩
  · rw [← hget, ← List.drop_eq_getElem_cons, List.take_append_drop]
  · rw [List.length_take]
    omega
  · rw [h.contents_events, List.getElem?_map, hnode, Option.map_some, Content.begun, ← he]

/-- The settled nodes after an end tag that has closed an element. -/
theorem settled_close {inner outer : List (OpenEntry Nat)} {x : OpenEntry Nat}
    (h : Stands ps (inner ++ x :: outer)) {c : Closure Nat}
    (hcloses : Represents.Closes (Outline.ofPieces ps).openElements c inner x outer)
    {e : Element} {a b : List Outlined}
    (hnodes : (Outline.ofPieces ps).settled = a ++ ⟨.element e, 0⟩ :: b)
    (hlen : a.length = x.item) (he : e.ending = .missing) :
    ((Outline.ofPieces ps).close c).settled = a ++
      ⟨.element { e with ending := if x.overdue then .crossClosed else .closed }, b.length⟩ :: b := by
  have hskipped : ∀ number ∈ c.skipped, Outline.Waiting (Outline.ofPieces ps).settled number := by
    rw [hcloses.skipped]
    intro number hnumber
    obtain ⟨y, hy, rfl⟩ := List.mem_map.1 hnumber
    obtain ⟨e', hnode, he', -⟩ := h.waiting y (List.mem_append_left _ (List.mem_filter.1 hy).1)
    exact ⟨e', hnode, he'⟩
  have hdelays := Outline.settled_delays
    (o := { Outline.ofPieces ps with openElements := c.remaining }) hskipped
  rw [Outline.close, hcloses.item.trans hlen.symm, hcloses.overdue]
  refine Outline.settled_finish (hdelays.trans hnodes) he ?_
  cases x.overdue <;> decide

/-- What is left of the open elements once one of them has ended: the nodes have changed at its
place only. -/
theorem without {inner outer : List (OpenEntry Nat)} {x : OpenEntry Nat}
    (h : Stands ps (inner ++ x :: outer)) {a b : List Outlined} {y : Outlined}
    (hnodes : (Outline.ofPieces ps).settled = a ++ y :: b) (hlen : a.length = x.item)
    (y' : Outlined) : ∀ z ∈ inner.map OpenEntry.delay ++ outer,
      WaitsAs (a ++ y' :: b) z ∧
      (z.overdue = false → Outline.InRange ((a ++ y' :: b).take z.item)) ∧
      z.item ≠ x.item ∧ z.item ∉ ends (events ps) := by
  obtain ⟨-, hrest, hacross⟩ := List.pairwise_append.1 h.descending
  obtain ⟨hbelow, -⟩ := List.pairwise_cons.1 hrest
  -- an entry that is left was there before, and is another one than that of the end tag
  have hold : ∀ z ∈ inner.map OpenEntry.delay ++ outer, ∃ z' ∈ inner ++ x :: outer,
      z'.item = z.item ∧ z'.key = z.key ∧ z'.item ≠ x.item ∧
        (z.overdue = false → z'.overdue = false ∧ z'.item < x.item) := by
    intro z hz
    rcases List.mem_append.1 hz with hmem | hmem
    · obtain ⟨z', hz', rfl⟩ := List.mem_map.1 hmem
      have hlt := hacross z' hz' x (List.mem_cons_self ..)
      exact ⟨z', List.mem_append_left _ hz', rfl, rfl, by omega, fun hover => nomatch hover⟩
    · have hlt := hbelow z hmem
      exact ⟨z, List.mem_append_right _ (List.mem_cons_of_mem _ hmem), rfl, rfl, by omega,
        fun hover => ⟨hover, hlt⟩⟩
  intro z hz
  obtain ⟨z', hz', hitem, hkey, hne, hinTime⟩ := hold z hz
  unfold WaitsAs
  rw [← hitem, ← hkey]
  refine ⟨?_, fun hover => ?_, hne, h.unended z' hz'⟩
  · obtain ⟨e, hnode, he⟩ := h.waiting z' hz'
    refine ⟨e, ?_, he⟩
    rw [← hnode, hnodes, List.getElem?_append, List.getElem?_append]
    split
    · rfl
    · obtain ⟨m, hm⟩ : ∃ m, z'.item - a.length = m + 1 := ⟨z'.item - a.length - 1, by omega⟩
      rw [hm, List.getElem?_cons_succ, List.getElem?_cons_succ]
  · obtain ⟨hover', hlt⟩ := hinTime hover
    have hrange := h.inTime z' hz' hover'
    rw [hnodes, List.take_append_of_le_length (by omega)] at hrange
    rwa [List.take_append_of_le_length (by omega)]

/-- The first entry of a name is the innermost element of its name. -/
theorem isInnermost {inner outer : List (OpenEntry Nat)} {x : OpenEntry Nat}
    (h : Stands ps (inner ++ x :: outer)) (hinner : ∀ z ∈ inner, z.key ≠ x.key) :
    IsInnermost (events ps) x.item := by
  obtain ⟨e, -, -, -, -, -, hwaits, hkey, he⟩ :=
    h.split (List.mem_append_right _ (List.mem_cons_self ..))
  refine ⟨e, he, hwaits, fun n e' hlt he' hwaits' hname => ?_⟩
  by_contra hnot
  obtain ⟨z, hz, rfl⟩ := h.open_of_waits n e' he' hwaits' hnot
  obtain ⟨d, -, -, -, -, -, -, hzkey, hd⟩ := h.split hz
  obtain rfl : e' = d := by
    rw [he'] at hd
    injection hd with hd
    injection hd
  have hbelow := (List.pairwise_cons.1 (List.pairwise_append.1 h.descending).2.1).1
  rcases List.mem_append.1 hz with hmem | hmem
  · exact hinner z hmem (hzkey.trans (hname.trans hkey.symm))
  · rcases List.mem_cons.1 hmem with rfl | hmem
    · exact Nat.lt_irrefl _ hlt
    · exact Nat.lt_asymm hlt (hbelow z hmem)

/-- An end tag that closes an element. -/
theorem close {inner outer : List (OpenEntry Nat)} {x : OpenEntry Nat}
    (h : Stands ps (inner ++ x :: outer)) (hinner : ∀ z ∈ inner, z.key ≠ x.key) {c : Closure Nat}
    {name : String} (raw : String) (hclose : (Outline.ofPieces ps).openElements.close? name = some c)
    (hcloses : Represents.Closes (Outline.ofPieces ps).openElements c inner x outer) :
    Stands (ps ++ [.endTag name raw]) (inner.map OpenEntry.delay ++ outer) := by
  have hx : x ∈ inner ++ x :: outer := List.mem_append_right _ (List.mem_cons_self ..)
  obtain ⟨e, a, b, hnodes, hlen, he, -, -, hcontent⟩ := h.split hx
  have hsettled : (Outline.ofPieces (ps ++ [.endTag name raw])).settled = a ++
      ⟨.element { e with ending := if x.overdue then .crossClosed else .closed }, b.length⟩ :: b := by
    rw [ofPieces_append_singleton, Outline.add_endTag_of_some raw hclose]
    exact h.settled_close hcloses hnodes hlen he
  have hevents : events (ps ++ [.endTag name raw]) =
      events ps ++ [if x.overdue then .dropped x.item else .ended x.item] := by
    rw [events_append_singleton, Outline.event, hclose]
    dsimp only
    rw [hcloses.overdue, hcloses.item]
  have hends : ends (events (ps ++ [.endTag name raw])) = ends (events ps) ++ [x.item] := by
    rw [hevents, ends_append]
    cases x.overdue <;> rfl
  have hcontents : contents (events (ps ++ [.endTag name raw])) = contents (events ps) := by
    rw [hevents, contents_append]
    cases x.overdue <;> exact List.append_nil _
  obtain ⟨hbefore, hrest, hacross⟩ := List.pairwise_append.1 h.descending
  obtain ⟨hbelow, hafter⟩ := List.pairwise_cons.1 hrest
  have hleft := h.without hnodes hlen
    ⟨.element { e with ending := if x.overdue then .crossClosed else .closed }, b.length⟩
  refine ⟨?_, ?_, ?_, ?_, ?_, ?_, ?_, ?_, ?_, ?_⟩
  · have hahead := h.ahead
    rw [hnodes] at hahead
    rw [hsettled, hevents]
    cases hover : x.overdue with
    | true =>
      obtain ⟨xs, ys, hwait, hdrop⟩ :=
        Outline.treeEvents_crossClosed he a b (Nat.le_refl b.length) 0
      rw [hwait] at hahead
      rw [if_pos rfl, if_pos rfl, hdrop, Nat.zero_add, hlen]
      exact hahead.sooner _
    | false =>
      have hrange := h.inTime x hx hover
      rw [hnodes, ← hlen, List.take_left] at hrange
      rw [if_neg (by decide), if_neg (by decide), Outline.treeEvents_closed he hrange, hlen]
      exact hahead.both _
  · rw [hevents]
    refine h.orderly.end ?_ ?_ (h.unended x hx) ?_
    · cases x.overdue <;> rfl
    · exact (List.getElem?_eq_some_iff.1 hcontent).1
    · exact fun _ => h.isInnermost hinner
  · have hrange := h.range
    rw [hnodes] at hrange
    rw [hsettled]
    exact hrange.replace (Nat.le_refl _)
  · have hleaves := h.leaves
    rw [hnodes] at hleaves
    rw [hsettled]
    exact hleaves.replace _ _
  · rw [ofPieces_append_singleton, Outline.add_endTag_of_some raw hclose,
      Outline.openElements_close]
    exact hcloses.remaining
  · rw [hsettled]
    exact fun z hz => (hleft z hz).1
  · rw [List.pairwise_append, List.pairwise_map]
    refine ⟨hbefore, hafter, fun z hz z' hz' => ?_⟩
    obtain ⟨z'', hz'', rfl⟩ := List.mem_map.1 hz
    exact hacross z'' hz'' z' (List.mem_cons_of_mem _ hz')
  · rw [hsettled]
    exact fun z hz => (hleft z hz).2.1
  · rw [hcontents, hends]
    intro n e' hn he' hnot
    rw [List.mem_append, not_or, List.mem_singleton] at hnot
    obtain ⟨z, hz, rfl⟩ := h.open_of_waits n e' hn he' hnot.1
    rcases List.mem_append.1 hz with hmem | hmem
    · exact ⟨z.delay, List.mem_append_left _ (List.mem_map_of_mem hmem), rfl⟩
    · rcases List.mem_cons.1 hmem with rfl | hmem
      · exact absurd rfl hnot.2
      · exact ⟨z, List.mem_append_right _ hmem, rfl⟩
  · rw [hends]
    intro z hz
    rw [List.mem_append, not_or, List.mem_singleton]
    exact ⟨(hleft z hz).2.2.2, (hleft z hz).2.2.1⟩

/-- One more piece. -/
theorem step (h : Stands ps es) {p : Piece} (hp : p.WellRead) :
    ∃ es', Stands (ps ++ [p]) es' := by
  cases p with
  | text raw => exact ⟨es, h.leaf rfl rfl rfl rfl fun e he => by cases he⟩
  | comment body => exact ⟨es, h.leaf rfl rfl rfl rfl fun e he => by cases he⟩
  | conditionalEnd raw => exact ⟨es, h.leaf rfl rfl rfl rfl fun e he => by cases he⟩
  | conditionalStart e =>
    obtain ⟨name, condition, rfl, -⟩ := hp
    refine ⟨es, h.leaf rfl rfl rfl rfl fun e he hwaits => ?_⟩
    cases he
    cases hwaits.1
  | startTag e =>
    by_cases hself : e.selfClosed = true
    · have hsettle : Outlined.settle ⟨.element e, 0⟩ = ⟨.element e, 0⟩ := by
        simp only [Outlined.settle, hp.ending]
        rfl
      have hbegun : (Content.element e).begun = .element e := by
        rw [Content.begun, ← hp.ending]
      have hadd : (Outline.ofPieces ps).add (.startTag e) =
          (Outline.ofPieces ps).append (.element e) := by
        rw [Outline.add, hself]
        rfl
      refine ⟨es, h.leaf rfl hadd hsettle hbegun fun e' he' hwaits => ?_⟩
      cases he'
      exact absurd (hwaits.2.symm.trans hself) (by decide)
    · exact ⟨_, h.push hp.ending ⟨hp.condition, by simpa using hself⟩⟩
  | endTag name raw =>
    rcases h.opened.close?_cases name with
      hnone | ⟨inner, x, outer, c, rfl, hinner, -, hclose, hcloses⟩
    · refine ⟨es, h.leaf ?_ (Outline.add_endTag_of_none raw hnone) rfl rfl fun e he => by cases he⟩
      rw [Outline.event, hnone]
    · exact ⟨_, h.close hinner raw hclose hcloses⟩

end Stands

/-- **The invariant along the pieces.** The induction adds one piece at the end. -/
theorem exists_stands {ps : List Piece} (hps : ∀ p ∈ ps, p.WellRead) : ∃ es, Stands ps es := by
  induction ps using List.reverseRecOn with
  | nil => exact ⟨[], .empty⟩
  | append_singleton ps p ih =>
    obtain ⟨es, h⟩ := ih fun q hq => hps q (List.mem_append_left _ hq)
    exact h.step (hps p (by simp))

variable {ps : List Piece}

/-- The events in the order of the tree. -/
theorem ahead_treeEvents (hps : ∀ p ∈ ps, p.WellRead) :
    Ahead (Outline.treeEvents 0 (Outline.ofPieces ps).nodes.toList) (events ps) := by
  obtain ⟨es, h⟩ := exists_stands hps
  rw [← Outline.treeEvents_settle]
  exact h.ahead

/-- Only the elements of an outline contain nodes. -/
theorem onlyElementsContain (hps : ∀ p ∈ ps, p.WellRead) :
    Outline.OnlyElementsContain (Outline.ofPieces ps).nodes.toList := by
  obtain ⟨es, h⟩ := exists_stands hps
  exact h.leaves.of_settle

theorem orderly_events (hps : ∀ p ∈ ps, p.WellRead) : Orderly (events ps) := by
  obtain ⟨es, h⟩ := exists_stands hps
  exact h.orderly

theorem orderly_treeEvents (hps : ∀ p ∈ ps, p.WellRead) :
    Orderly (Outline.treeEvents 0 (Outline.ofPieces ps).nodes.toList) :=
  (ahead_treeEvents hps).orderly (orderly_events hps) (Outline.follow_treeEvents _ 0)

end Piece

end MarkupFilter
