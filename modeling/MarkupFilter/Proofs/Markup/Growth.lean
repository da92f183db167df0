import MarkupFilter.Proofs.Markup.Enclosing

/-!
# Trees that grow

Trees in which a node is replaced at its address, and trees that grow: elements are rewritten, and
new nodes are added behind the nodes in an element, while all that was there stays in its place.

## Main definitions

* `Markup.Proper` — a tree of nodes that may be below a root: only elements have nodes below.
* `Markup.GrowsTo`, `Markup.AllGrowTo` — a tree, or a row of trees, grows.

## Main results

* `Tree.node?_put`, `Tree.put_put`, `Tree.put_append` — what a replacement does.
* `Markup.GrowsTo.trans` — a tree can grow several times.
* `Markup.GrowsTo.proper` — what grows stays proper.
* `Markup.proper_parse` — the trees of a text are proper.
-/

set_option autoImplicit false

namespace MarkupFilter

/-! ## Replaced nodes -/

namespace Tree

variable {α : Type}

@[simp] theorem put_nil (t s : Tree α) : t.put [] s = s := by
  rw [put]

theorem put_cons {n : Nat} {cs : List (Tree α)} {c : Tree α} (h : cs[n]? = some c) (a : α)
    (address : List Nat) (s : Tree α) :
    (Tree.node a cs).put (n :: address) s = .node a (cs.set n (c.put address s)) := by
  rw [put, h]

theorem node?_cons {n : Nat} {cs : List (Tree α)} {c : Tree α} (h : cs[n]? = some c) (a : α)
    (address : List Nat) : (Tree.node a cs).node? (n :: address) = c.node? address := by
  rw [node?, h, Option.bind_some]

/-- A node with a longer address is below a child. -/
theorem exists_of_node?_cons {n : Nat} {address : List Nat} {a : α} {cs : List (Tree α)}
    {t : Tree α} (h : (Tree.node a cs).node? (n :: address) = some t) :
    ∃ c, cs[n]? = some c ∧ c.node? address = some t := by
  rw [node?] at h
  exact Option.bind_eq_some_iff.1 h

/-- The node that was put at an address is there. -/
theorem node?_put {address : List Nat} {t x : Tree α} (h : t.node? address = some x)
    (s : Tree α) : (t.put address s).node? address = some s := by
  induction address generalizing t with
  | nil => rw [put_nil, node?]
  | cons n address ih =>
    obtain ⟨a, cs⟩ := t
    obtain ⟨c, hc, hx⟩ := exists_of_node?_cons h
    have hset : (cs.set n (c.put address s))[n]? = some (c.put address s) :=
      List.getElem?_set_self (List.getElem?_eq_some_iff.1 hc).1
    rw [put_cons hc, node?_cons hset, ih hx]

/-- Of two replacements at an address, the second counts. -/
theorem put_put {address : List Nat} {t x : Tree α} (h : t.node? address = some x)
    (s s' : Tree α) : (t.put address s).put address s' = t.put address s' := by
  induction address generalizing t with
  | nil => rw [put_nil, put_nil]
  | cons n address ih =>
    obtain ⟨a, cs⟩ := t
    obtain ⟨c, hc, hx⟩ := exists_of_node?_cons h
    have hset : (cs.set n (c.put address s))[n]? = some (c.put address s) :=
      List.getElem?_set_self (List.getElem?_eq_some_iff.1 hc).1
    rw [put_cons hc, put_cons hc, put_cons hset, List.set_set, ih hx]

/-- A node that replaces itself changes nothing. -/
theorem put_self {address : List Nat} {t x : Tree α} (h : t.node? address = some x) :
    t.put address x = t := by
  induction address generalizing t with
  | nil => rw [put_nil, Option.some.inj h]
  | cons n address ih =>
    obtain ⟨a, cs⟩ := t
    obtain ⟨c, hc, hx⟩ := exists_of_node?_cons h
    obtain ⟨hlt, rfl⟩ := List.getElem?_eq_some_iff.1 hc
    rw [put_cons hc, ih hx, List.set_getElem_self]

/-- A replacement below a node replaces that node. -/
theorem put_append {address : List Nat} {t x : Tree α} (h : t.node? address = some x)
    (rest : List Nat) (s : Tree α) :
    t.put (address ++ rest) s = t.put address (x.put rest s) := by
  induction address generalizing t with
  | nil => rw [List.nil_append, put_nil, Option.some.inj h]
  | cons n address ih =>
    obtain ⟨a, cs⟩ := t
    obtain ⟨c, hc, hx⟩ := exists_of_node?_cons h
    rw [List.cons_append, put_cons hc, put_cons hc, ih hx]

/-- A replacement is a change of the node. -/
theorem modify?_eq_put {g : Tree α → Option (Tree α)} {address : List Nat} {t x s : Tree α}
    (h : t.node? address = some x) (hg : g x = some s) :
    t.modify? g address = some (t.put address s) := by
  induction address generalizing t with
  | nil => rw [modify?, Option.some.inj h, hg, put_nil]
  | cons n address ih =>
    obtain ⟨a, cs⟩ := t
    obtain ⟨c, hc, hx⟩ := exists_of_node?_cons h
    rw [modify?, hc]
    dsimp only
    rw [ih hx, Option.map_some, put_cons hc]

/-- A replacement does not change the label of the node above. -/
theorem parentLabel?_put {address : List Nat} {t x : Tree α} (h : t.node? address = some x)
    (s : Tree α) : (t.put address s).parentLabel? address = t.parentLabel? address := by
  rcases List.eq_nil_or_concat' address with rfl | ⟨above, n, rfl⟩
  · rfl
  · have hne : (above ++ [n]).isEmpty = false := by simp
    rw [node?_append] at h
    obtain ⟨y, hy, hx⟩ := Option.bind_eq_some_iff.1 h
    obtain ⟨a, cs⟩ := y
    obtain ⟨c, hc, -⟩ := exists_of_node?_cons hx
    rw [parentLabel?, parentLabel?, hne, List.dropLast_concat, put_append hy, node?_put hy, hy,
      put_cons hc]
    rfl

end Tree

namespace Markup

variable {m : Markup} {address : List Nat}

theorem content?_eq {c : Content} {cs : List Markup} (h : m.node? address = some (.node c cs)) :
    m.content? address = some c := by
  rw [content?, h]
  rfl

theorem element?_eq {c : Content} {cs : List Markup} (h : m.node? address = some (.node c cs)) :
    m.element? address = c.element? := by
  rw [element?, h]
  rfl

theorem childAddresses_eq {c : Content} {cs : List Markup}
    (h : m.node? address = some (.node c cs)) :
    m.childAddresses address = (List.range' 0 cs.length).map fun n => address ++ [n] := by
  rw [childAddresses, h]
  dsimp only [Tree.children]
  rw [List.range_eq_range']

/-- The element above a node is that of the node. -/
theorem parentElement?_eq {c : Content} {cs : List Markup} (h : m.node? address = some (.node c cs))
    (n : Nat) : m.parentElement? (address ++ [n]) = c.element? := by
  have hne : (address ++ [n]).isEmpty = false := by simp
  rw [parentElement?, Tree.parentLabel?, hne, List.dropLast_concat, h]
  rfl

theorem parentElement?_put {t : Markup} (h : m.node? address = some t) (s : Markup) :
    parentElement? (m.put address s) address = m.parentElement? address := by
  rw [parentElement?, parentElement?, Tree.parentLabel?_put h]

theorem updateElement?_eq {e : Element} {cs : List Markup}
    (h : m.node? address = some (.node (.element e) cs)) (g : Element → Element) :
    m.updateElement? address g = some (m.put address (.node (.element (g e)) cs)) :=
  Tree.modify?_eq_put h rfl

/-! ## Proper trees -/

/-- The tree can be below a root: it has no root inside, and only elements have nodes below. -/
inductive Proper : Markup → Prop
  | leaf {c : Content} (hc : c ≠ .fragment) : Proper (.node c [])
  | element {e : Element} {cs : List Markup} (hcs : ∀ t ∈ cs, Proper t) :
      Proper (.node (.element e) cs)

theorem Proper.inside {e : Element} {cs : List Markup} (h : Proper (.node (.element e) cs)) :
    ∀ t ∈ cs, Proper t := by
  cases h with
  | leaf hc => exact fun t ht => absurd ht List.not_mem_nil
  | element hcs => exact hcs

/-- A tree is proper if all its nodes are. The induction is on the tree. -/
theorem proper_of_nodes (t : Markup) (h : ∀ address c cs, t.node? address = some (.node c cs) →
    c ≠ .fragment ∧ (c.element? = none → cs = [])) : Proper t := by
  match t with
  | .node c cs =>
    obtain ⟨hc, hleaf⟩ := h [] c cs rfl
    cases c with
    | element e =>
      refine .element fun t ht => ?_
      obtain ⟨n, hn⟩ := List.getElem?_of_mem ht
      exact proper_of_nodes t fun address c' cs' hnode =>
        h (n :: address) c' cs' ((Tree.node?_cons hn _ address).trans hnode)
    | _ =>
      rw [hleaf rfl]
      exact .leaf hc

/-- **The trees of a text are proper.** -/
theorem proper_parse (input : String) : ∀ t ∈ (Markup.parse input).children, Proper t := by
  intro t ht
  obtain ⟨n, hn⟩ := List.getElem?_of_mem ht
  refine proper_of_nodes t fun address c cs hnode => ?_
  have hroot : (Markup.parse input).node? (n :: address) = some (.node c cs) := by
    rw [← hnode]
    generalize Markup.parse input = m at hn
    obtain ⟨a, ts⟩ := m
    exact Tree.node?_cons hn a address
  obtain ⟨i, is, above, hlocated⟩ := exists_located (List.cons_ne_nil n address) hroot
  obtain ⟨rfl, rfl⟩ := Tree.node.inj (Option.some.inj (hroot.symm.trans hlocated.node))
  have hlt := (Piece.mem_nodePlaces.1 hlocated.mem_nodePlaces).1
  refine ⟨?_, fun hnone => ?_⟩
  · rw [Piece.contentAt, List.getElem?_eq_getElem hlt]
    cases (Piece.ofText input)[i] <;> exact Content.noConfusion
  · have hcloser : Piece.closer? (Piece.ofText input) i = none := by
      refine Piece.closer?_eq_none_of_not_opensAt fun key hopens => ?_
      obtain ⟨e, he⟩ := Piece.contentAt_of_opensAt hopens
      rw [he] at hnone
      cases hnone
    rw [hlocated.trees_eq_nil hcloser]
    rfl

/-! ## Growth -/

mutual

/-- The tree grows: its elements may be rewritten, and new nodes are added behind the nodes in them.
Other nodes stay as they are. -/
def GrowsTo : Markup → Markup → Prop
  | .node (.element _) cs, .node (.element _) cs' => AllGrowTo cs cs'
  | t, t' => t = t'

/-- Each tree of the row grows, and new trees are added behind them. -/
def AllGrowTo : List Markup → List Markup → Prop
  | [], added => ∀ t ∈ added, Proper t
  | t :: ts, t' :: ts' => GrowsTo t t' ∧ AllGrowTo ts ts'
  | _ :: _, [] => False

end

theorem growsTo_element_iff {e : Element} {cs : List Markup} {t : Markup} :
    GrowsTo (.node (.element e) cs) t ↔
      ∃ e' cs', t = .node (.element e') cs' ∧ AllGrowTo cs cs' := by
  obtain ⟨c, cs'⟩ := t
  cases c with
  | element e' =>
    rw [GrowsTo]
    exact ⟨fun h => ⟨e', cs', rfl, h⟩, fun ⟨_, _, heq, h⟩ => by cases heq; exact h⟩
  | _ =>
    rw [GrowsTo]
    · refine iff_of_false (fun h => ?_) fun ⟨_, _, heq, _⟩ => ?_
      · cases h
      · cases heq
    · rintro - - - - - ⟨⟩

theorem growsTo_other_iff {c : Content} (hc : c.element? = none) {cs : List Markup} {t : Markup} :
    GrowsTo (.node c cs) t ↔ .node c cs = t := by
  rw [GrowsTo]
  rintro e - - - ⟨⟩
  cases hc

@[simp] theorem allGrowTo_nil_iff {ts : List Markup} :
    AllGrowTo [] ts ↔ ∀ t ∈ ts, Proper t := by
  rw [AllGrowTo]

theorem allGrowTo_cons_iff {t : Markup} {ts us : List Markup} :
    AllGrowTo (t :: ts) us ↔ ∃ u us', us = u :: us' ∧ GrowsTo t u ∧ AllGrowTo ts us' := by
  cases us with
  | nil =>
    rw [AllGrowTo]
    refine iff_of_false id fun ⟨_, _, heq, _⟩ => ?_
    cases heq
  | cons u us =>
    rw [AllGrowTo]
    exact ⟨fun h => ⟨u, us, rfl, h⟩, fun ⟨_, _, heq, h⟩ => by cases heq; exact h⟩

/-- A row in which each tree grows, without new ones. -/
theorem AllGrowTo.of_forall₂ {ts us : List Markup} (h : List.Forall₂ GrowsTo ts us) :
    AllGrowTo ts us := by
  induction h with
  | nil => exact allGrowTo_nil_iff.2 fun t ht => absurd ht List.not_mem_nil
  | cons hhead _ ih => exact allGrowTo_cons_iff.2 ⟨_, _, rfl, hhead, ih⟩

mutual

/-- A tree can grow by nothing. -/
theorem GrowsTo.refl (t : Markup) : GrowsTo t t := by
  match t with
  | .node (.element e) cs => exact growsTo_element_iff.2 ⟨e, cs, rfl, AllGrowTo.refl cs⟩
  | .node .fragment cs => exact (growsTo_other_iff rfl).2 rfl
  | .node (.text raw) cs => exact (growsTo_other_iff rfl).2 rfl
  | .node (.stray raw closing) cs => exact (growsTo_other_iff rfl).2 rfl
  | .node (.comment body) cs => exact (growsTo_other_iff rfl).2 rfl

theorem AllGrowTo.refl (ts : List Markup) : AllGrowTo ts ts := by
  match ts with
  | [] => exact allGrowTo_nil_iff.2 fun t ht => absurd ht List.not_mem_nil
  | t :: ts => exact allGrowTo_cons_iff.2 ⟨t, ts, rfl, GrowsTo.refl t, AllGrowTo.refl ts⟩

end

/-- A row grows by what is added behind it. -/
theorem AllGrowTo.append (ts : List Markup) {added : List Markup} (h : ∀ t ∈ added, Proper t) :
    AllGrowTo ts (ts ++ added) := by
  induction ts with
  | nil => exact allGrowTo_nil_iff.2 h
  | cons t ts ih => exact allGrowTo_cons_iff.2 ⟨t, ts ++ added, rfl, .refl t, ih⟩

mutual

/-- **What grows stays proper.** -/
theorem GrowsTo.proper {t u : Markup} (h : GrowsTo t u) (ht : Proper t) : Proper u := by
  match t with
  | .node (.element e) cs =>
    obtain ⟨e', cs', rfl, hcs⟩ := growsTo_element_iff.1 h
    exact .element (AllGrowTo.proper hcs ht.inside)
  | .node .fragment cs => exact (growsTo_other_iff rfl).1 h ▸ ht
  | .node (.text raw) cs => exact (growsTo_other_iff rfl).1 h ▸ ht
  | .node (.stray raw closing) cs => exact (growsTo_other_iff rfl).1 h ▸ ht
  | .node (.comment body) cs => exact (growsTo_other_iff rfl).1 h ▸ ht

theorem AllGrowTo.proper {ts us : List Markup} (h : AllGrowTo ts us) (hts : ∀ t ∈ ts, Proper t) :
    ∀ u ∈ us, Proper u := by
  match ts with
  | [] => exact allGrowTo_nil_iff.1 h
  | t :: ts =>
    obtain ⟨u, us, rfl, hhead, htail⟩ := allGrowTo_cons_iff.1 h
    intro x hx
    rcases List.mem_cons.1 hx with rfl | hx
    · exact GrowsTo.proper hhead (hts t (List.mem_cons_self ..))
    · exact AllGrowTo.proper htail (fun y hy => hts y (List.mem_cons_of_mem _ hy)) x hx

end

mutual

/-- **A tree can grow several times.** -/
theorem GrowsTo.trans {t u v : Markup} (h : GrowsTo t u) (h' : GrowsTo u v) : GrowsTo t v := by
  match t with
  | .node (.element e) cs =>
    obtain ⟨e', cs', rfl, hcs⟩ := growsTo_element_iff.1 h
    obtain ⟨e'', cs'', rfl, hcs'⟩ := growsTo_element_iff.1 h'
    exact growsTo_element_iff.2 ⟨e'', cs'', rfl, AllGrowTo.trans hcs hcs'⟩
  | .node .fragment cs => exact (growsTo_other_iff rfl).1 h ▸ h'
  | .node (.text raw) cs => exact (growsTo_other_iff rfl).1 h ▸ h'
  | .node (.stray raw closing) cs => exact (growsTo_other_iff rfl).1 h ▸ h'
  | .node (.comment body) cs => exact (growsTo_other_iff rfl).1 h ▸ h'

/-- What was added first grows with the rest. -/
theorem AllGrowTo.trans {ts us vs : List Markup} (h : AllGrowTo ts us) (h' : AllGrowTo us vs) :
    AllGrowTo ts vs := by
  match ts with
  | [] => exact allGrowTo_nil_iff.2 (AllGrowTo.proper h' (allGrowTo_nil_iff.1 h))
  | t :: ts =>
    obtain ⟨u, us, rfl, hhead, htail⟩ := allGrowTo_cons_iff.1 h
    obtain ⟨v, vs, rfl, hhead', htail'⟩ := allGrowTo_cons_iff.1 h'
    exact allGrowTo_cons_iff.2 ⟨v, vs, rfl, GrowsTo.trans hhead hhead', AllGrowTo.trans htail htail'⟩

end

end Markup

end MarkupFilter
