import Mathlib.Data.List.Basic
import MarkupFilter.Markup.Tree

/-!
# Nesting by reach

Numbers in ascending order form trees once it is known how far each of them reaches: a number
contains those after it that are below its reach, as far as the numbers around it reach as well.
What stands above a number and below it can then be read off the numbers.

## Main definitions

* `Tree.nest` — the trees that a row of numbers forms.
* `Tree.Occurs` — a tree stands in a row of trees, below nodes with given labels.
* `Tree.number?` — how many nodes come before the one at an address.

## Main results

* `Tree.preorderAll_nest` — the order of the numbers stays.
* `Tree.Occurs.inside` — what a number contains.
* `Tree.Occurs.above`, `Tree.Occurs.mem_above` — what contains a number.
* `Tree.number?_cases`, `Tree.number?_inj` — numbers find the nodes, and tell them apart.
-/

set_option autoImplicit false

namespace MarkupFilter

namespace Tree

variable {α β : Type}

/-! ## Rows of trees -/

theorem preorderAll_append (ts us : List (Tree α)) :
    preorderAll (ts ++ us) = preorderAll ts ++ preorderAll us := by
  induction ts with
  | nil => rfl
  | cons t ts ih => rw [List.cons_append, preorderAll_cons, preorderAll_cons, ih, List.append_assoc]

/-- The labels of a row, around those of one of its trees. -/
theorem preorderAll_eq_around {cs : List (Tree α)} {c : Tree α} {n : Nat} (h : cs[n]? = some c) :
    preorderAll cs =
      preorderAll (cs.take n) ++ (c.preorder ++ preorderAll (cs.drop (n + 1))) := by
  obtain ⟨hn, rfl⟩ := List.getElem?_eq_some_iff.1 h
  rw [← preorderAll_cons, ← preorderAll_append, ← List.drop_eq_getElem_cons hn,
    List.take_append_drop]

mutual

theorem preorder_map (f : α → β) (t : Tree α) : (map f t).preorder = t.preorder.map f := by
  match t with
  | .node a cs => rw [map, preorder_node, preorder_node, preorderAll_mapAll, List.map_cons]

theorem preorderAll_mapAll (f : α → β) (ts : List (Tree α)) :
    preorderAll (mapAll f ts) = (preorderAll ts).map f := by
  match ts with
  | [] => rfl
  | t :: ts =>
    rw [mapAll, preorderAll_cons, preorderAll_cons, preorder_map, preorderAll_mapAll,
      List.map_append]

end

theorem mapAll_eq_map (f : α → β) (ts : List (Tree α)) : mapAll f ts = ts.map (map f) := by
  induction ts with
  | nil => rfl
  | cons t ts ih => rw [mapAll, ih, List.map_cons]

theorem node?_map (f : α → β) (address : List Nat) (t : Tree α) :
    (map f t).node? address = (t.node? address).map (map f) := by
  induction address generalizing t with
  | nil => rfl
  | cons n address ih =>
    obtain ⟨a, cs⟩ := t
    rw [map, node?, node?, mapAll_eq_map, List.getElem?_map]
    cases cs[n]? with
    | none => rfl
    | some c => exact ih c

/-- The nodes below a node are those at longer addresses. -/
theorem node?_append (address rest : List Nat) (t : Tree α) :
    t.node? (address ++ rest) = (t.node? address).bind (node? rest) := by
  induction address generalizing t with
  | nil => rfl
  | cons n address ih =>
    obtain ⟨a, cs⟩ := t
    rw [List.cons_append, node?, node?]
    cases cs[n]? with
    | none => rfl
    | some c => exact ih c

mutual

theorem mem_preorder (t : Tree α) (a : α) :
    a ∈ t.preorder ↔ ∃ address, (t.node? address).map label = some a := by
  match t with
  | .node b cs =>
    rw [preorder_node, List.mem_cons, mem_preorderAll]
    constructor
    · rintro (rfl | ⟨n, address, h⟩)
      · exact ⟨[], rfl⟩
      · exact ⟨n :: address, h⟩
    · rintro ⟨address, h⟩
      cases address with
      | nil => exact .inl (Option.some.inj h).symm
      | cons n address => exact .inr ⟨n, address, h⟩

/-- The labels of a row of trees are those of the nodes at addresses. -/
theorem mem_preorderAll (ts : List (Tree α)) (a : α) :
    a ∈ preorderAll ts ↔
      ∃ (n : Nat) (address : List Nat), (ts[n]?.bind (node? address)).map label = some a := by
  match ts with
  | [] => simp
  | t :: ts =>
    rw [preorderAll_cons, List.mem_append, mem_preorder, mem_preorderAll]
    constructor
    · rintro (⟨address, h⟩ | ⟨n, address, h⟩)
      · exact ⟨0, address, h⟩
      · exact ⟨n + 1, address, h⟩
    · rintro ⟨n, address, h⟩
      cases n with
      | zero => exact .inl ⟨address, h⟩
      | succ n => exact .inr ⟨n, address, h⟩

end

/-! ## Numbers of nodes -/

/-- How many nodes of a tree come before the one at an address. -/
def number? : List Nat → Tree α → Option Nat
  | [], _ => some 0
  | n :: address, .node _ cs =>
    cs[n]?.bind fun c => (number? address c).map ((preorderAll (cs.take n)).length + 1 + ·)

theorem number?_map (f : α → β) (address : List Nat) (t : Tree α) :
    (map f t).number? address = t.number? address := by
  induction address generalizing t with
  | nil => rfl
  | cons n address ih =>
    obtain ⟨a, cs⟩ := t
    rw [map, number?, number?, mapAll_eq_map, List.getElem?_map, ← List.map_take, ← mapAll_eq_map,
      preorderAll_mapAll, List.length_map]
    cases cs[n]? with
    | none => rfl
    | some c => rw [Option.map_some, Option.bind_some, Option.bind_some, ih]

/-- Every node has a number, by which it is found among all nodes; nothing else has one. -/
theorem number?_cases (address : List Nat) (t : Tree α) :
    t.number? address = none ∧ t.node? address = none ∨
      ∃ k s, t.number? address = some k ∧ t.node? address = some s ∧
        t.preorder[k]? = some s.label := by
  induction address generalizing t with
  | nil =>
    obtain ⟨a, cs⟩ := t
    exact .inr ⟨0, _, rfl, rfl, by rw [preorder_node]; rfl⟩
  | cons n address ih =>
    obtain ⟨a, cs⟩ := t
    rw [number?, node?]
    cases hc : cs[n]? with
    | none => exact .inl ⟨rfl, rfl⟩
    | some c =>
      rw [Option.bind_some, Option.bind_some]
      rcases ih c with ⟨hnumber, hnode⟩ | ⟨k, s, hnumber, hnode, hlabel⟩
      · exact .inl ⟨by rw [hnumber, Option.map_none], hnode⟩
      · refine .inr ⟨_, s, by rw [hnumber, Option.map_some], hnode, ?_⟩
        have hk : k < c.preorder.length := (List.getElem?_eq_some_iff.1 hlabel).1
        rw [preorder_node, Nat.add_right_comm, List.getElem?_cons_succ,
          preorderAll_eq_around hc, List.getElem?_append_right (Nat.le_add_right _ _), Nat.add_sub_cancel_left,
          List.getElem?_append_left hk, hlabel]

theorem number?_cons_iff {n : Nat} {address : List Nat} {t : Tree α} {k : Nat} :
    t.number? (n :: address) = some k ↔ ∃ c m, t.children[n]? = some c ∧
      c.number? address = some m ∧ k = (preorderAll (t.children.take n)).length + 1 + m := by
  obtain ⟨a, cs⟩ := t
  simp only [number?, children, Option.bind_eq_some_iff, Option.map_eq_some_iff]
  constructor
  · rintro ⟨c, hc, m, hm, rfl⟩
    exact ⟨c, m, hc, hm, rfl⟩
  · rintro ⟨c, m, hc, hm, rfl⟩
    exact ⟨c, hc, m, hm, rfl⟩

/-- A tree stands somewhere in a row of trees, below nodes with the given labels, of which the
outermost comes first. -/
inductive Occurs : List α → Tree α → List (Tree α) → Prop
  | first (t : Tree α) (ts : List (Tree α)) : Occurs [] t (t :: ts)
  | next {above : List α} {t : Tree α} {ts : List (Tree α)} (s : Tree α) (h : Occurs above t ts) :
      Occurs above t (s :: ts)
  | under {above : List α} {t : Tree α} {cs : List (Tree α)} (a : α) (ts : List (Tree α))
      (h : Occurs above t cs) : Occurs (a :: above) t (.node a cs :: ts)

/-- What stands in a row is among its labels. -/
theorem Occurs.label_mem {above : List α} {t : Tree α} {ts : List (Tree α)}
    (h : Occurs above t ts) : t.label ∈ preorderAll ts := by
  induction h with
  | first t ts =>
    obtain ⟨a, cs⟩ := t
    simp [label]
  | next s _ ih =>
    rw [preorderAll_cons]
    exact List.mem_append_right _ ih
  | under a ts _ ih =>
    rw [preorderAll_cons, preorder_node]
    exact List.mem_append_left _ (List.mem_cons_of_mem _ ih)

/-- A tree below another one of a row stands in the row. -/
theorem Occurs.of_getElem? {above : List α} {t : Tree α} {a : α} {cs ts : List (Tree α)} {n : Nat}
    (hn : ts[n]? = some (.node a cs)) (h : Occurs above t cs) : Occurs (a :: above) t ts := by
  induction ts generalizing n with
  | nil => cases hn
  | cons s ts ih =>
    cases n with
    | zero =>
      cases Option.some.inj hn
      exact .under a ts h
    | succ n => exact .next s (ih hn)

theorem Occurs.of_member {t : Tree α} {ts : List (Tree α)} {n : Nat} (hn : ts[n]? = some t) :
    Occurs [] t ts := by
  induction ts generalizing n with
  | nil => cases hn
  | cons s ts ih =>
    cases n with
    | zero =>
      cases Option.some.inj hn
      exact .first t ts
    | succ n => exact .next s (ih hn)

/-- The address of a node that contains the one at an address, and is not the root. -/
structure IsInner (outer address : List Nat) : Prop where
  isPrefix : outer <+: address
  ne_nil : outer ≠ []
  ne : outer ≠ address

theorem isInner_cons {outer address : List Nat} {n : Nat} :
    IsInner outer (n :: address) ↔
      ∃ rest, outer = n :: rest ∧ rest <+: address ∧ rest ≠ address := by
  constructor
  · rintro ⟨hfirst, hnil, hne⟩
    cases outer with
    | nil => exact absurd rfl hnil
    | cons m rest =>
      obtain ⟨rfl, hrest⟩ := List.cons_prefix_cons.1 hfirst
      exact ⟨rest, rfl, hrest, fun heq => hne (by rw [heq])⟩
  · rintro ⟨rest, rfl, hrest, hne⟩
    exact ⟨List.cons_prefix_cons.2 ⟨rfl, hrest⟩, List.cons_ne_nil _ _,
      fun heq => hne (List.cons.inj heq).2⟩

/-- **A node stands below those at the shorter addresses.** By induction on the address. -/
theorem exists_occurs {address : List Nat} {root : α} {ts : List (Tree α)} {t : Tree α}
    (hne : address ≠ []) (h : (Tree.node root ts).node? address = some t) :
    ∃ above, Occurs above t ts ∧ ∀ a, a ∈ above ↔ ∃ outer, IsInner outer address ∧
      ((Tree.node root ts).node? outer).map label = some a := by
  induction address generalizing root ts with
  | nil => exact absurd rfl hne
  | cons n address ih =>
    rw [node?] at h
    obtain ⟨⟨b, cs⟩, hn, ht⟩ := Option.bind_eq_some_iff.1 h
    cases address with
    | nil =>
      obtain rfl := Option.some.inj ht
      refine ⟨[], .of_member hn, fun a => ?_⟩
      simp [isInner_cons]
    | cons m address =>
      obtain ⟨above, hoccurs, hmem⟩ := ih (List.cons_ne_nil m address) ht
      refine ⟨b :: above, hoccurs.of_getElem? hn, fun a => ?_⟩
      have hnode : ∀ rest, (Tree.node root ts).node? (n :: rest) =
          (Tree.node b cs).node? rest := by
        intro rest
        rw [node?, hn, Option.bind_some]
      rw [List.mem_cons, hmem]
      constructor
      · rintro (rfl | ⟨outer, houter, hlabel⟩)
        · refine ⟨[n], isInner_cons.2 ⟨[], rfl, List.nil_prefix, by simp⟩, ?_⟩
          rw [hnode]
          rfl
        · exact ⟨n :: outer, isInner_cons.2 ⟨outer, rfl, houter.isPrefix, houter.ne⟩,
            by rw [hnode, hlabel]⟩
      · rintro ⟨outer, houter, hlabel⟩
        obtain ⟨rest, rfl, hfirst, hne⟩ := isInner_cons.1 houter
        rw [hnode] at hlabel
        cases rest with
        | nil => exact .inl (Option.some.inj hlabel).symm
        | cons k rest => exact .inr ⟨k :: rest, ⟨hfirst, List.cons_ne_nil _ _, hne⟩, hlabel⟩

/-! ## Nesting -/

/-- The trees that a row of numbers forms: a number contains those right after it that are below its
reach. -/
def nest (reach : Nat → Nat) : List Nat → List (Tree Nat)
  | [] => []
  | i :: l =>
    .node i (nest reach (l.takeWhile (· < reach i))) :: nest reach (l.dropWhile (· < reach i))
termination_by l => l.length
decreasing_by
  · exact Nat.lt_succ_of_le (List.takeWhile_sublist _).length_le
  · exact Nat.lt_succ_of_le (List.dropWhile_sublist _).length_le

theorem nest_cons (reach : Nat → Nat) (i : Nat) (l : List Nat) :
    nest reach (i :: l) = .node i (nest reach (l.takeWhile (· < reach i))) ::
      nest reach (l.dropWhile (· < reach i)) := by
  rw [nest]

/-- **The order of the numbers stays.** -/
theorem preorderAll_nest (reach : Nat → Nat) (l : List Nat) : preorderAll (nest reach l) = l := by
  induction hn : l.length using Nat.strongRecOn generalizing l with
  | _ n ih =>
    cases l with
    | nil => rw [nest, preorderAll_nil]
    | cons i l =>
      have htake : (l.takeWhile (· < reach i)).length < n :=
        hn ▸ Nat.lt_succ_of_le (List.takeWhile_sublist _).length_le
      have hdrop : (l.dropWhile (· < reach i)).length < n :=
        hn ▸ Nat.lt_succ_of_le (List.dropWhile_sublist _).length_le
      rw [nest_cons, preorderAll_cons, preorder_node, ih _ htake _ rfl, ih _ hdrop _ rfl,
        List.cons_append, List.takeWhile_append_dropWhile]

/-- The first tree of a nesting, and the others. -/
theorem nest_eq_cons {reach : Nat → Nat} {l : List Nat} {t : Tree Nat} {ts : List (Tree Nat)}
    (h : nest reach l = t :: ts) : ∃ i rest, l = i :: rest ∧
      t = .node i (nest reach (rest.takeWhile (· < reach i))) ∧
      ts = nest reach (rest.dropWhile (· < reach i)) := by
  cases l with
  | nil =>
    rw [nest] at h
    cases h
  | cons i rest =>
    rw [nest_cons] at h
    cases h
    exact ⟨i, rest, rfl, rfl, rfl⟩

section Sorted

variable {reach : Nat → Nat} {l : List Nat}

/-- Of numbers in ascending order those below a bound come first. -/
theorem lt_of_mem_takeWhile {r x : Nat} (h : x ∈ l.takeWhile (· < r)) : x < r := by
  simpa using List.all_eq_true.1 List.all_takeWhile x h

theorem le_of_mem_dropWhile (hl : l.Pairwise (· < ·)) {r x : Nat}
    (h : x ∈ l.dropWhile (· < r)) : r ≤ x := by
  induction l with
  | nil => cases h
  | cons y l ih =>
    obtain ⟨hy, hl⟩ := List.pairwise_cons.1 hl
    rw [List.dropWhile_cons] at h
    split at h
    · exact ih hl h
    · next hr =>
      have hr : r ≤ y := by simpa using hr
      rcases List.mem_cons.1 h with rfl | h
      · exact hr
      · exact Nat.le_trans hr (Nat.le_of_lt (hy x h))

theorem mem_takeWhile_iff (hl : l.Pairwise (· < ·)) {r x : Nat} :
    x ∈ l.takeWhile (· < r) ↔ x ∈ l ∧ x < r := by
  constructor
  · exact fun h => ⟨(List.takeWhile_sublist _).mem h, lt_of_mem_takeWhile h⟩
  · rintro ⟨hx, hlt⟩
    rw [← List.takeWhile_append_dropWhile (p := (· < r)) (l := l), List.mem_append] at hx
    exact hx.resolve_right fun hdrop => Nat.not_le_of_lt hlt (le_of_mem_dropWhile hl hdrop)

theorem mem_dropWhile_iff (hl : l.Pairwise (· < ·)) {r x : Nat} :
    x ∈ l.dropWhile (· < r) ↔ x ∈ l ∧ r ≤ x := by
  constructor
  · exact fun h => ⟨(List.dropWhile_sublist _).mem h, le_of_mem_dropWhile hl h⟩
  · rintro ⟨hx, hle⟩
    rw [← List.takeWhile_append_dropWhile (p := (· < r)) (l := l), List.mem_append] at hx
    exact hx.resolve_left fun htake => Nat.not_le_of_lt (lt_of_mem_takeWhile htake) hle

theorem Occurs.mem_of_nest {above : List Nat} {i : Nat} {cs : List (Tree Nat)}
    (h : Occurs above (.node i cs) (nest reach l)) : i ∈ l := by
  have hlabel := h.label_mem
  rwa [preorderAll_nest] at hlabel

/-- The numbers that a number stands below are smaller, and reach beyond it. -/
theorem Occurs.above {above : List Nat} {i : Nat} {cs : List (Tree Nat)} (hl : l.Pairwise (· < ·))
    (h : Occurs above (.node i cs) (nest reach l)) :
    ∀ a ∈ above, a ∈ l ∧ a < i ∧ i < reach a := by
  generalize hts : nest reach l = ts at h
  generalize ht : Tree.node i cs = t at h
  induction h generalizing l with
  | first t ts => simp
  | next s h ih =>
    obtain ⟨b, rest, rfl, rfl, rfl⟩ := nest_eq_cons hts
    obtain ⟨-, hrest⟩ := List.pairwise_cons.1 hl
    intro a ha
    obtain ⟨hmem, hlt⟩ := ih (hrest.sublist (List.dropWhile_sublist _)) rfl ht a ha
    exact ⟨List.mem_cons_of_mem _ ((List.dropWhile_sublist _).mem hmem), hlt⟩
  | under b ts h ih =>
    obtain ⟨b, rest, rfl, heq, rfl⟩ := nest_eq_cons hts
    cases heq
    obtain ⟨hb, hrest⟩ := List.pairwise_cons.1 hl
    intro a ha
    rcases List.mem_cons.1 ha with rfl | ha
    · have hmem := (mem_takeWhile_iff hrest).1 (ht ▸ h).mem_of_nest
      exact ⟨List.mem_cons_self .., hb i hmem.1, hmem.2⟩
    · obtain ⟨hmem, hlt⟩ := ih (hrest.sublist (List.takeWhile_sublist _)) rfl ht a ha
      exact ⟨List.mem_cons_of_mem _ ((List.takeWhile_sublist _).mem hmem), hlt⟩

/-- **What a number contains**: the numbers after it that are below its own reach and that of all
numbers that contain it. -/
theorem Occurs.inside {above : List Nat} {i : Nat} {cs : List (Tree Nat)} (hl : l.Pairwise (· < ·))
    (h : Occurs above (.node i cs) (nest reach l)) (x : Nat) :
    x ∈ preorderAll cs ↔ x ∈ l ∧ i < x ∧ x < reach i ∧ ∀ a ∈ above, x < reach a := by
  generalize hts : nest reach l = ts at h
  generalize ht : Tree.node i cs = t at h
  induction h generalizing l with
  | first t ts =>
    obtain ⟨b, rest, rfl, rfl, rfl⟩ := nest_eq_cons hts
    cases ht
    obtain ⟨hb, hrest⟩ := List.pairwise_cons.1 hl
    rw [preorderAll_nest, mem_takeWhile_iff hrest, List.mem_cons]
    constructor
    · exact fun ⟨hx, hlt⟩ => ⟨.inr hx, hb x hx, hlt, by simp⟩
    · exact fun ⟨hx, hgt, hlt, _⟩ => ⟨hx.resolve_left (Nat.ne_of_gt hgt), hlt⟩
  | next s h ih =>
    obtain ⟨b, rest, rfl, rfl, rfl⟩ := nest_eq_cons hts
    obtain ⟨hb, hrest⟩ := List.pairwise_cons.1 hl
    have hmem := (mem_dropWhile_iff hrest).1 (ht ▸ h).mem_of_nest
    rw [ih (hrest.sublist (List.dropWhile_sublist _)) rfl ht, mem_dropWhile_iff hrest,
      List.mem_cons]
    constructor
    · exact fun ⟨hx, hin⟩ => ⟨.inr hx.1, hin⟩
    · rintro ⟨hx, hgt, hin⟩
      have hbi := hb i hmem.1
      exact ⟨⟨hx.resolve_left (by omega), by omega⟩, hgt, hin⟩
  | under b ts h ih =>
    obtain ⟨b, rest, rfl, heq, rfl⟩ := nest_eq_cons hts
    cases heq
    obtain ⟨hb, hrest⟩ := List.pairwise_cons.1 hl
    have hmem := (mem_takeWhile_iff hrest).1 (ht ▸ h).mem_of_nest
    rw [ih (hrest.sublist (List.takeWhile_sublist _)) rfl ht, mem_takeWhile_iff hrest,
      List.forall_mem_cons, List.mem_cons]
    constructor
    · exact fun ⟨hx, hgt, hlt, hin⟩ => ⟨.inr hx.1, hgt, hlt, hx.2, hin⟩
    · rintro ⟨hx, hgt, hlt, hbx, hin⟩
      have hbi := hb i hmem.1
      exact ⟨⟨hx.resolve_left (by omega), hbx⟩, hgt, hlt, hin⟩

/-- **What contains a number**: a smaller number does that reaches beyond it, if the numbers before
that one which reach beyond that one also reach beyond the given number. -/
theorem Occurs.mem_above {above : List Nat} {i x : Nat} {cs : List (Tree Nat)}
    (hl : l.Pairwise (· < ·)) (h : Occurs above (.node i cs) (nest reach l)) (hx : x ∈ l)
    (hlt : x < i) (hreach : i < reach x)
    (houter : ∀ y ∈ l, y < x → x < reach y → i < reach y) : x ∈ above := by
  generalize hts : nest reach l = ts at h
  generalize ht : Tree.node i cs = t at h
  induction h generalizing l with
  | first t ts =>
    obtain ⟨b, rest, rfl, rfl, rfl⟩ := nest_eq_cons hts
    cases ht
    rcases List.mem_cons.1 hx with rfl | hx
    · exact absurd hlt (Nat.lt_irrefl _)
    · exact absurd hlt (Nat.lt_asymm ((List.pairwise_cons.1 hl).1 x hx))
  | next s h ih =>
    obtain ⟨b, rest, rfl, rfl, rfl⟩ := nest_eq_cons hts
    obtain ⟨hb, hrest⟩ := List.pairwise_cons.1 hl
    have hmem := (mem_dropWhile_iff hrest).1 (ht ▸ h).mem_of_nest
    -- `x` does not stand inside of `b`, since `b` does not reach to `i`
    have hbx : reach b ≤ x := by
      by_contra hbx
      rcases List.mem_cons.1 hx with rfl | hx'
      · omega
      · have := houter b (List.mem_cons_self ..) (hb x hx') (by omega)
        omega
    refine ih (hrest.sublist (List.dropWhile_sublist _)) ?_ ?_ rfl ht
    · rcases List.mem_cons.1 hx with rfl | hx
      · omega
      · exact (mem_dropWhile_iff hrest).2 ⟨hx, hbx⟩
    · exact fun y hy => houter y (List.mem_cons_of_mem _ ((List.dropWhile_sublist _).mem hy))
  | under b ts h ih =>
    obtain ⟨b, rest, rfl, heq, rfl⟩ := nest_eq_cons hts
    cases heq
    obtain ⟨hb, hrest⟩ := List.pairwise_cons.1 hl
    have hmem := (mem_takeWhile_iff hrest).1 (ht ▸ h).mem_of_nest
    rcases List.mem_cons.1 hx with rfl | hx
    · exact List.mem_cons_self ..
    · refine List.mem_cons_of_mem _ (ih (hrest.sublist (List.takeWhile_sublist _)) ?_ ?_ rfl ht)
      · exact (mem_takeWhile_iff hrest).2 ⟨hx, Nat.lt_trans hlt hmem.2⟩
      · exact fun y hy => houter y (List.mem_cons_of_mem _ ((List.takeWhile_sublist _).mem hy))

end Sorted

end Tree

end MarkupFilter
