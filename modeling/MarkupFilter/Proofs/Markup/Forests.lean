import MarkupFilter.Markup.Building

/-!
# Forests of outlines

The trees of a stretch of nodes, as a function of the list of these nodes. As long as no extent
reaches beyond a stretch, the trees of the stretch do not depend on what follows it.

## Main definitions

* `Outline.trees` — the trees that a list of nodes forms.
* `Outline.InRange` — no node of a list contains more than what follows in it.
* `Outlined.settle` — a node for which it does not count whether its end tag is overdue.

## Main results

* `Outline.forest_eq_trees` — the forest of an outline is the trees of its nodes.
* `Outline.trees_append` — the trees of two stretches.
* `Outline.toList_finish`, `Outline.settle_delays` — what an end tag does to the nodes.
-/

set_option autoImplicit false

namespace MarkupFilter

namespace Outline

/-! ## Trees of a list of nodes -/

/-- The trees that a list of nodes forms: the first node contains as many of the others as its
extent says. -/
def trees : List Outlined → List Markup
  | [] => []
  | o :: os => .node o.content (trees (os.take o.extent)) :: trees (os.drop o.extent)
termination_by os => os.length

@[simp] theorem trees_nil : trees [] = [] := by
  rw [trees]

theorem trees_cons (o : Outlined) (os : List Outlined) :
    trees (o :: os) = .node o.content (trees (os.take o.extent)) :: trees (os.drop o.extent) := by
  rw [trees]

/-- The trees of a stretch of the nodes of an outline. The induction is on the number of nodes, of
which both the inside of the first and what follows it have fewer. -/
theorem forest_eq (nodes : Array Outlined) (start count : Nat) (h : start + count ≤ nodes.size) :
    forest nodes start count = trees ((nodes.toList.drop start).take count) := by
  induction count using Nat.strongRecOn generalizing start with
  | _ count ih =>
    cases count with
    | zero => rw [forest, List.take_zero, trees_nil]
    | succ count =>
      have hlt : start < nodes.size := by omega
      have hlist : (nodes.toList.drop start).take (count + 1) =
          nodes[start] :: (nodes.toList.drop (start + 1)).take count := by
        rw [List.drop_eq_getElem_cons (by simpa using hlt), List.take_succ_cons,
          Array.getElem_toList]
      rw [forest, Array.getElem?_eq_getElem hlt, hlist, trees_cons]
      dsimp only
      have hinside := ih (min nodes[start].extent count) (by omega) (start + 1) (by omega)
      have hafter := ih (count - min nodes[start].extent count) (by omega)
        (start + 1 + min nodes[start].extent count) (by omega)
      rw [hinside, hafter, List.take_take]
      congr 2
      rw [List.drop_take, List.drop_drop]
      by_cases hle : nodes[start].extent ≤ count
      · rw [Nat.min_eq_left hle]
      · rw [Nat.min_eq_right (by omega), Nat.sub_self, Nat.sub_eq_zero_of_le (by omega),
          List.take_zero, List.take_zero]

/-- **The forest of an outline is the trees of its nodes.** -/
theorem forest_eq_trees (o : Outline) :
    forest o.nodes 0 o.nodes.size = trees o.nodes.toList := by
  rw [forest_eq o.nodes 0 o.nodes.size (Nat.le_of_eq (Nat.zero_add _)), List.drop_zero,
    List.take_of_length_le (Nat.le_of_eq Array.length_toList)]

/-! ## Extents in range -/

/-- No node contains more than what follows it in the list. -/
def InRange : List Outlined → Prop
  | [] => True
  | o :: os => o.extent ≤ os.length ∧ InRange os

theorem InRange.append {xs ys : List Outlined} (hx : InRange xs) (hy : InRange ys) :
    InRange (xs ++ ys) := by
  induction xs with
  | nil => exact hy
  | cons o os ih =>
    refine ⟨?_, ih hx.2⟩
    show o.extent ≤ (os ++ ys).length
    rw [List.length_append]
    exact Nat.le_add_right_of_le hx.1

theorem InRange.right {xs ys : List Outlined} (h : InRange (xs ++ ys)) : InRange ys := by
  induction xs with
  | nil => exact h
  | cons o os ih => exact ih h.2

theorem InRange.drop {xs : List Outlined} (h : InRange xs) (n : Nat) : InRange (xs.drop n) := by
  rw [← List.take_append_drop n xs] at h
  exact h.right

/-- The extent of one node does not count for the nodes before it. -/
theorem InRange.replace {xs ys : List Outlined} {x y : Outlined} (h : InRange (xs ++ x :: ys))
    (hy : y.extent ≤ ys.length) : InRange (xs ++ y :: ys) := by
  induction xs with
  | nil => exact ⟨hy, h.2⟩
  | cons o os ih =>
    obtain ⟨hle, hrest⟩ := h
    refine ⟨?_, ih hrest⟩
    show o.extent ≤ (os ++ y :: ys).length
    have hle : o.extent ≤ (os ++ x :: ys).length := hle
    rw [List.length_append, List.length_cons] at hle ⊢
    exact hle

/-- **The trees of two stretches**, of which the first is closed in itself. The induction is on the
length of the first stretch; what follows the inside of its first node is shorter. -/
theorem trees_append {xs : List Outlined} (ys : List Outlined) (h : InRange xs) :
    trees (xs ++ ys) = trees xs ++ trees ys := by
  induction hn : xs.length using Nat.strongRecOn generalizing xs with
  | _ n ih =>
    cases xs with
    | nil => rw [trees_nil, List.nil_append, List.nil_append]
    | cons o os =>
      have hrest : (os.drop o.extent).length < n := by
        rw [List.length_drop, ← hn, List.length_cons]
        omega
      rw [List.cons_append, trees_cons, trees_cons, List.take_append_of_le_length h.1,
        List.drop_append_of_le_length h.1, ih _ hrest (h.2.drop _) rfl, List.cons_append]

/-! ## Nodes of an outline -/

@[simp] theorem toList_append (o : Outline) (c : Content) :
    (o.append c).nodes.toList = o.nodes.toList ++ [{ content := c }] := by
  rw [append, Array.toList_push]

theorem toList_startTag (o : Outline) (e : Element) :
    (o.add (.startTag e)).nodes.toList = o.nodes.toList ++ [{ content := .element e }] :=
  toList_append o (.element e)

theorem modify_append (a b : List Outlined) (x : Outlined) (f : Outlined → Outlined) :
    (a ++ x :: b).modify a.length f = a ++ f x :: b := by
  induction a with
  | nil => rfl
  | cons y a ih => rw [List.cons_append, List.length_cons, List.modify_succ_cons, ih]; rfl

/-- An element that has ended contains all nodes after it. -/
theorem toList_finish {o : Outline} {a b : List Outlined} {x : Outlined}
    (h : o.nodes.toList = a ++ x :: b) (ending : Ending) :
    (o.finish a.length ending).nodes.toList =
      a ++ { x.withEnding ending with extent := b.length } :: b := by
  have hsize : o.nodes.size - (a.length + 1) = b.length := by
    rw [← Array.length_toList, h, List.length_append, List.length_cons]
    omega
  rw [finish, hsize, Array.toList_modify, h, modify_append]

/-! ## Open elements of an outline -/

theorem openElements_delays (o : Outline) (numbers : List Nat) :
    (numbers.foldl delay o).openElements = o.openElements := by
  induction numbers generalizing o with
  | nil => rfl
  | cons number numbers ih => exact ih (o.delay number)

/-- After an end tag the elements are open that it leaves. -/
theorem openElements_close (o : Outline) (c : Closure Nat) :
    (o.close c).openElements = c.remaining := by
  rw [close]
  exact openElements_delays _ _

theorem openElements_startTag (o : Outline) (e : Element) :
    (o.add (.startTag e)).openElements =
      if e.selfClosed then o.openElements else o.openElements.push e.name o.nodes.size := rfl

theorem add_endTag_of_none {o : Outline} {name : String} (raw : String)
    (h : o.openElements.close? name = none) :
    o.add (.endTag name raw) = o.append (.stray raw (.endTag name)) := by
  rw [add, h]

theorem add_endTag_of_some {o : Outline} {name : String} {c : Closure Nat} (raw : String)
    (h : o.openElements.close? name = some c) : o.add (.endTag name raw) = o.close c := by
  rw [add, h]

end Outline

/-! ## Overdue end tags -/

namespace Outlined

/-- The node with a missing end tag in place of an overdue one. -/
def settle (o : Outlined) : Outlined :=
  match o.content with
  | .element e => if e.ending = .overdue then o.withEnding .missing else o
  | _ => o

@[simp] theorem extent_withEnding (ending : Ending) (o : Outlined) :
    (o.withEnding ending).extent = o.extent := by
  unfold withEnding
  split <;> rfl

@[simp] theorem extent_settle (o : Outlined) : o.settle.extent = o.extent := by
  unfold settle
  split
  · split
    · exact extent_withEnding _ _
    · rfl
  · rfl

/-- An element with the given ending. -/
theorem withEnding_eq {o : Outlined} {e : Element} (h : o.content = .element e)
    (ending : Ending) : o.withEnding ending = ⟨.element { e with ending := ending }, o.extent⟩ := by
  unfold withEnding
  rw [h]

/-- What a node looks like that is an element without an end tag once it is settled. -/
theorem of_settle {o : Outlined} {e : Element} (h : o.settle.content = .element e)
    (he : e.ending = .missing) :
    ∃ ending, (ending = .missing ∨ ending = .overdue) ∧
      o.content = .element { e with ending := ending } := by
  obtain ⟨content, extent⟩ := o
  cases content with
  | element e' =>
    by_cases hover : e'.ending = .overdue
    · refine ⟨.overdue, .inr rfl, ?_⟩
      simp only [settle, hover, if_true, withEnding, Content.element.injEq] at h
      rw [← h, ← hover]
    · simp only [settle, hover, if_false, Content.element.injEq] at h
      refine ⟨.missing, .inl rfl, ?_⟩
      rw [← he, h]
  | fragment => cases h
  | text raw => cases h
  | stray raw closing => cases h
  | comment body => cases h

/-- A delay is not seen once the node is settled. -/
theorem settle_withEnding_overdue {o : Outlined} {e : Element} (h : o.settle.content = .element e)
    (he : e.ending = .missing) : (o.withEnding .overdue).settle = o.settle := by
  obtain ⟨ending, hending, hcontent⟩ := of_settle h he
  obtain ⟨content, extent⟩ := o
  obtain rfl : content = _ := hcontent
  rcases hending with rfl | rfl <;> simp [settle, withEnding]

/-- An end tag that has been seen stays when the node is settled. -/
theorem settle_finished {o : Outlined} {e : Element} (h : o.settle.content = .element e)
    (he : e.ending = .missing) {ending : Ending} (hending : ending ≠ .overdue) (extent : Nat) :
    settle { o.withEnding ending with extent := extent } =
      ⟨.element { e with ending := ending }, extent⟩ := by
  obtain ⟨before, -, hcontent⟩ := of_settle h he
  rw [withEnding_eq hcontent]
  simp [settle, hending]

end Outlined

namespace Outline

/-- The nodes of an outline for which it does not count whether end tags are overdue. -/
def settled (o : Outline) : List Outlined :=
  o.nodes.toList.map Outlined.settle

theorem length_settled (o : Outline) : o.settled.length = o.nodes.size := by
  rw [settled, List.length_map, Array.length_toList]

theorem settled_append {o : Outline} {c : Content} (h : Outlined.settle ⟨c, 0⟩ = ⟨c, 0⟩) :
    (o.append c).settled = o.settled ++ [⟨c, 0⟩] := by
  rw [settled, toList_append, List.map_append, List.map_singleton, h, settled]

/-- An element that waits for its end tag. -/
def Waiting (nodes : List Outlined) (number : Nat) : Prop :=
  ∃ e : Element, nodes[number]? = some ⟨.element e, 0⟩ ∧ e.ending = .missing

theorem settled_delay {o : Outline} {number : Nat} (h : Waiting o.settled number) :
    (o.delay number).settled = o.settled := by
  obtain ⟨e, hnode, he⟩ := h
  rw [settled, delay, Array.toList_modify]
  refine List.ext_getElem? fun i => ?_
  rw [settled, List.getElem?_map, List.getElem?_map, List.getElem?_modify]
  rw [settled, List.getElem?_map] at hnode
  by_cases hi : number = i
  · subst hi
    obtain ⟨x, hx, hsettle⟩ := Option.map_eq_some_iff.1 hnode
    rw [hx, Option.map_eq_map, Option.map_some, if_pos rfl, Option.map_some, Option.map_some,
      Outlined.settle_withEnding_overdue (by rw [hsettle]) he]
  · cases hx : o.nodes.toList[i]? with
    | none => rfl
    | some x => rw [Option.map_eq_map, Option.map_some, if_neg hi]

/-- Delays are not seen in settled nodes. -/
theorem settled_delays {o : Outline} {numbers : List Nat}
    (h : ∀ number ∈ numbers, Waiting o.settled number) :
    (numbers.foldl delay o).settled = o.settled := by
  induction numbers generalizing o with
  | nil => rfl
  | cons number numbers ih =>
    have hfirst := settled_delay (h number (List.mem_cons_self ..))
    rw [List.foldl_cons, ih, hfirst]
    intro n hn
    rw [hfirst]
    exact h n (List.mem_cons_of_mem _ hn)

/-- An element that has ended contains all nodes after it, also in settled nodes. -/
theorem settled_finish {o : Outline} {a b : List Outlined} {e : Element}
    (h : o.settled = a ++ ⟨.element e, 0⟩ :: b) (he : e.ending = .missing) {ending : Ending}
    (hending : ending ≠ .overdue) :
    (o.finish a.length ending).settled =
      a ++ ⟨.element { e with ending := ending }, b.length⟩ :: b := by
  obtain ⟨a', rest, hnodes, ha, hrest⟩ := List.map_eq_append_iff.1 h
  obtain ⟨x, b', rfl, hx, hb⟩ := List.map_eq_cons_iff.1 hrest
  have hlen : a'.length = a.length := by rw [← ha, List.length_map]
  have hcontent : x.settle.content = .element e := by rw [hx]
  rw [settled, ← hlen, toList_finish hnodes, List.map_append, List.map_cons, ha, hb,
    Outlined.settle_finished hcontent he hending, ← hb, List.length_map]

end Outline

end MarkupFilter
