import MarkupFilter.Filter.InPlace
import MarkupFilter.Proofs.Filter.Marking
import MarkupFilter.Proofs.Markup.Growth

/-!
# Tours through trees that grow

A tour changes the tree that it goes through, and listeners add nodes on the way. As long as a
listener keeps to the element that it is called on, rewrites elements and adds nodes as last children
only, nothing is missed: what is added before the children of an element are counted is gone through
with them, and what is added later belongs to a node that the tour has not left yet.

## Main definitions

* `TreeListener.OnlyGrows` — a listener keeps to its element, and the tree grows there.
* `Markup.stops`, `Markup.stopsAll` — the stops of a tour through a tree, or a row of trees.
* `Tour.Adds` — what a part of a tour adds to it.
* `Tour.Covers` — a tour has been everywhere in the tree that it leaves.

## Main results

* `Markup.mem_starts_iff`, `Markup.pairwise_starts` — the stops are at all nodes, in their order.
* `Filter.toured_row`, `Filter.toured_tourNode` — the tour through a row of nodes, and one node.
* `Filter.toured_parse` — a tour misses nothing that listeners add.
-/

set_option autoImplicit false

namespace MarkupFilter

open Markup (GrowsTo AllGrowTo Proper)

/-! ## Listeners that let trees grow -/

/-- The listener, called on an element, rewrites it and lets the nodes in it grow; the rest of the
tree stays as it is. What it does may depend on the whole tree. -/
def TreeListener.OnlyGrows (l : TreeListener) : Prop :=
  ∀ (m : Markup) (address : List Nat) (e : Element) (cs : List Markup),
    m.node? address = some (.node (.element e) cs) → (∀ t ∈ cs, Proper t) →
      ∃ e' cs', AllGrowTo cs cs' ∧ l.onTree m address = m.put address (.node (.element e') cs')

namespace TreeListener

/-- Several listeners, one after the other, let the tree grow as one does. -/
theorem foldl_onTree {ls : List TreeListener} (hls : ∀ l ∈ ls, l.OnlyGrows) {m : Markup}
    {address : List Nat} {e : Element} {cs : List Markup}
    (h : m.node? address = some (.node (.element e) cs)) (hcs : ∀ t ∈ cs, Proper t) :
    ∃ e' cs', AllGrowTo cs cs' ∧
      ls.foldl (fun m l => l.onTree m address) m = m.put address (.node (.element e') cs') := by
  induction ls generalizing m e cs with
  | nil => exact ⟨e, cs, .refl cs, (Tree.put_self h).symm⟩
  | cons l ls ih =>
    obtain ⟨e', cs', hgrow, heq⟩ := hls l (List.mem_cons_self ..) m address e cs h hcs
    obtain ⟨e'', cs'', hgrow', heq'⟩ := ih (fun l' hl' => hls l' (List.mem_cons_of_mem _ hl'))
      (Tree.node?_put h (.node (.element e') cs')) (hgrow.proper hcs)
    refine ⟨e'', cs'', hgrow.trans hgrow', ?_⟩
    rw [List.foldl_cons, heq, heq', Tree.put_put h]

end TreeListener

namespace ElementListener

/-- A listener that lets the nodes in its element grow does so in a tree. -/
theorem onlyGrows_inTree {l : ElementListener}
    (hl : ∀ e cs, (∀ t ∈ cs, Proper t) → AllGrowTo cs (l.onSubtree e cs).2) :
    l.inTree.OnlyGrows := by
  intro m address e cs h hcs
  refine ⟨(l.onSubtree e cs).1, (l.onSubtree e cs).2, hl e cs hcs, ?_⟩
  simp only [inTree, h]

/-- Listeners that are called in a tree do what they do to what is below an element. -/
theorem foldl_inTree (ls : List ElementListener) {m : Markup} {address : List Nat} {e : Element}
    {cs : List Markup} (h : m.node? address = some (.node (.element e) cs)) :
    (ls.map inTree).foldl (fun m l => l.onTree m address) m =
      m.put address
        (.node (.element (applyAllToSubtree ls e cs).1) (applyAllToSubtree ls e cs).2) := by
  induction ls generalizing m e cs with
  | nil => exact (Tree.put_self h).symm
  | cons l ls ih =>
    have hfirst : l.inTree.onTree m address =
        m.put address (.node (.element (l.onSubtree e cs).1) (l.onSubtree e cs).2) := by
      simp only [inTree, h]
    rw [List.map_cons, List.foldl_cons, hfirst, ih (Tree.node?_put h _), Tree.put_put h]
    rfl

end ElementListener

/-- Listeners of a policy that let the nodes in their elements grow do so in a tree. -/
theorem Policy.onlyGrows_treeListeners {p : Policy}
    (hp : ∀ name rule, p.elementRule? name = some rule → ∀ l ∈ rule.listeners, ∀ e cs,
      (∀ t ∈ cs, Proper t) → AllGrowTo cs (l.onSubtree e cs).2) (e : Element) :
    ∀ l ∈ p.treeListeners e, l.OnlyGrows := by
  intro l hl
  obtain ⟨l, hmem, rfl⟩ := List.mem_map.1 hl
  cases hrule : p.ruleFor? e with
  | none =>
    rw [hrule] at hmem
    cases hmem
  | some rule =>
    rw [hrule] at hmem
    exact ElementListener.onlyGrows_inTree (hp _ rule hrule l hmem)

/-! ## Stops -/

namespace Stop

/-- The stop below a node, told from above. -/
def under (address : List Nat) (x : Stop) : Stop :=
  { x with address := address ++ x.address }

/-- The nodes that are come to, in order. -/
def starts (xs : List Stop) : List (List Nat) :=
  (xs.filter fun x => !x.ends).map Stop.address

@[simp] theorem starts_nil : starts [] = [] := rfl

@[simp] theorem starts_append (xs ys : List Stop) : starts (xs ++ ys) = starts xs ++ starts ys := by
  rw [starts, List.filter_append, List.map_append, starts, starts]

@[simp] theorem starts_cons_start (address : List Nat) (xs : List Stop) :
    starts (⟨address, false⟩ :: xs) = address :: starts xs := rfl

@[simp] theorem starts_cons_end (address : List Nat) (xs : List Stop) :
    starts (⟨address, true⟩ :: xs) = starts xs := rfl

theorem starts_map_under (address : List Nat) (xs : List Stop) :
    starts (xs.map (under address)) = (starts xs).map (address ++ ·) := by
  rw [starts, starts, List.filter_map, List.map_map, List.map_map]
  rfl

theorem map_under_nil (xs : List Stop) : xs.map (under []) = xs :=
  List.map_id' xs

theorem map_under_under (address rest : List Nat) (xs : List Stop) :
    (xs.map (under rest)).map (under address) = xs.map (under (address ++ rest)) := by
  rw [List.map_map]
  refine List.map_congr_left fun x _ => ?_
  rw [Function.comp_apply, under, under, under, List.append_assoc]

end Stop

namespace Markup

mutual

/-- The stops of a tour through a tree, told from its root: it comes to a node, goes through all that
is in it if that is an element, and then stops at its end. -/
def stops : Markup → List Stop
  | .node (.element _) cs => ⟨[], false⟩ :: (stopsAll 0 cs ++ [⟨[], true⟩])
  | .node _ _ => [⟨[], false⟩]

/-- The stops of a tour through a row of trees, told from the node that they are in, where the
first has the given number. -/
def stopsAll (n : Nat) : List Markup → List Stop
  | [] => []
  | t :: ts => (stops t).map (Stop.under [n]) ++ stopsAll (n + 1) ts

end

/-- All stops at nodes that have none below are at the nodes themselves. -/
theorem stops_other {c : Content} (hc : c.element? = none) (cs : List Markup) :
    stops (.node c cs) = [⟨[], false⟩] := by
  rw [stops]
  rintro e rfl
  cases hc

theorem starts_element (e : Element) (cs : List Markup) :
    Stop.starts (stops (.node (.element e) cs)) = [] :: Stop.starts (stopsAll 0 cs) := by
  rw [stops, Stop.starts_cons_start, Stop.starts_append, Stop.starts_cons_end, Stop.starts_nil,
    List.append_nil]

theorem startsAll_cons (n : Nat) (t : Markup) (ts : List Markup) :
    Stop.starts (stopsAll n (t :: ts)) =
      (Stop.starts t.stops).map (n :: ·) ++ Stop.starts (stopsAll (n + 1) ts) := by
  rw [stopsAll, Stop.starts_append, Stop.starts_map_under]
  rfl

mutual

/-- **The stops are at all nodes.** -/
theorem mem_starts_iff {t : Markup} (ht : Proper t) (address : List Nat) :
    address ∈ Stop.starts (stops t) ↔ (t.node? address).isSome := by
  match t with
  | .node c cs =>
    by_cases hc : c.element? = none
    · have hleaf : cs = [] := by
        cases ht with
        | leaf => rfl
        | element => cases hc
      rw [stops_other hc, hleaf, Stop.starts_cons_start, Stop.starts_nil, List.mem_singleton]
      cases address with
      | nil => exact iff_of_true rfl rfl
      | cons n rest => exact iff_of_false (List.cons_ne_nil _ _) (by rw [Tree.node?]; simp)
    · cases c with
      | element e =>
        rw [starts_element, List.mem_cons, mem_startsAll_iff ht.inside]
        cases address with
        | nil => exact iff_of_true (.inl rfl) rfl
        | cons n rest =>
          rw [Tree.node?]
          constructor
          · rintro (h | ⟨k, rest', heq, h⟩)
            · cases h
            · obtain ⟨rfl, rfl⟩ := List.cons.inj heq
              rwa [Nat.zero_add]
          · intro h
            exact .inr ⟨n, rest, by rw [Nat.zero_add], h⟩
      | _ => exact absurd rfl hc

theorem mem_startsAll_iff {ts : List Markup} (hts : ∀ t ∈ ts, Proper t) {n : Nat}
    {address : List Nat} :
    address ∈ Stop.starts (stopsAll n ts) ↔
      ∃ k rest, address = (n + k) :: rest ∧ (ts[k]?.bind (Tree.node? rest)).isSome := by
  match ts with
  | [] => simp [stopsAll]
  | t :: ts =>
    have hhead := mem_starts_iff (hts t (List.mem_cons_self ..))
    have htail : address ∈ Stop.starts (stopsAll (n + 1) ts) ↔ _ :=
      mem_startsAll_iff fun u hu => hts u (List.mem_cons_of_mem _ hu)
    rw [startsAll_cons, List.mem_append, List.mem_map, htail]
    constructor
    · rintro (⟨rest, hrest, rfl⟩ | ⟨k, rest, rfl, h⟩)
      · exact ⟨0, rest, rfl, (hhead rest).1 hrest⟩
      · exact ⟨k + 1, rest, by rw [Nat.add_right_comm, Nat.add_assoc], h⟩
    · rintro ⟨k, rest, rfl, h⟩
      cases k with
      | zero => exact .inl ⟨rest, (hhead rest).2 h, rfl⟩
      | succ k => exact .inr ⟨k, rest, by rw [Nat.add_right_comm, Nat.add_assoc], h⟩

end

/-- The addresses in a row start with the numbers of its trees. -/
theorem exists_of_mem_startsAll {n : Nat} {ts : List Markup} {address : List Nat}
    (h : address ∈ Stop.starts (stopsAll n ts)) : ∃ k rest, address = k :: rest ∧ n ≤ k := by
  induction ts generalizing n with
  | nil => cases h
  | cons t ts ih =>
    rw [startsAll_cons, List.mem_append, List.mem_map] at h
    rcases h with ⟨rest, -, rfl⟩ | h
    · exact ⟨n, rest, rfl, Nat.le_refl n⟩
    · obtain ⟨k, rest, heq, hle⟩ := ih h
      exact ⟨k, rest, heq, Nat.le_of_succ_le hle⟩

mutual

/-- **The stops are in the order of the nodes**: a node comes before those below it, and before those
to its right, with all that is below them. That is the lexicographical order of addresses. -/
theorem pairwise_starts (t : Markup) : (Stop.starts (stops t)).Pairwise (· < ·) := by
  match t with
  | .node (.element e) cs =>
    rw [starts_element, List.pairwise_cons]
    refine ⟨fun address h => ?_, pairwise_startsAll 0 cs⟩
    obtain ⟨k, rest, rfl, -⟩ := exists_of_mem_startsAll h
    exact List.nil_lt_cons k rest
  | .node .fragment cs => exact List.pairwise_singleton _ _
  | .node (.text raw) cs => exact List.pairwise_singleton _ _
  | .node (.stray raw closing) cs => exact List.pairwise_singleton _ _
  | .node (.comment body) cs => exact List.pairwise_singleton _ _

theorem pairwise_startsAll (n : Nat) (ts : List Markup) :
    (Stop.starts (stopsAll n ts)).Pairwise (· < ·) := by
  match ts with
  | [] => exact .nil
  | t :: ts =>
    rw [startsAll_cons, List.pairwise_append]
    refine ⟨?_, pairwise_startsAll (n + 1) ts, fun x hx y hy => ?_⟩
    · rw [List.pairwise_map]
      exact (pairwise_starts t).imp fun h => List.cons_lt_cons_iff.2 (.inr ⟨rfl, h⟩)
    · obtain ⟨rest, -, rfl⟩ := List.mem_map.1 hx
      obtain ⟨k, rest', rfl, hk⟩ := exists_of_mem_startsAll hy
      exact List.cons_lt_cons_iff.2 (.inl hk)

end

end Markup

open Markup (stops stopsAll)

/-! ## Parts of a tour -/

/-- What is done at a step, wherever that is. -/
def TourStep.deed (x : TourStep) : Deed :=
  ⟨x.decided?, x.written, x.guard⟩

namespace Tour

/-- From one tour to the other, the tree becomes `markup`, the deeds are done at the stops, and what
they write is added to the text. -/
structure Adds (s : Tour) (markup : Markup) (deeds : List Deed) (stops : List Stop) (s' : Tour) :
    Prop where
  markup : s'.markup = markup
  progress : s'.progress =
    ⟨Deed.guardAfter s.progress.guard deeds, s.progress.text ++ Deed.text deeds⟩
  steps : ∃ new, s'.steps = s.steps ++ new ∧ new.map TourStep.deed = deeds ∧
    new.map TourStep.stop = stops

theorem Adds.nothing (s : Tour) : s.Adds s.markup [] [] s :=
  ⟨rfl, by simp, [], by simp⟩

theorem Adds.trans {s s' s'' : Tour} {markup markup' : Markup} {deeds deeds' : List Deed}
    {stops stops' : List Stop} (h : s.Adds markup deeds stops s')
    (h' : s'.Adds markup' deeds' stops' s'') :
    s.Adds markup' (deeds ++ deeds') (stops ++ stops') s'' := by
  obtain ⟨new, hnew, rfl, rfl⟩ := h.steps
  obtain ⟨new', hnew', rfl, rfl⟩ := h'.steps
  refine ⟨h'.markup, ?_, new ++ new', ?_, List.map_append, List.map_append⟩
  · rw [h'.progress, h.progress, Deed.guardAfter_append, Deed.text_append, String.append_assoc]
  · rw [hnew', hnew, List.append_assoc]

theorem adds_record (s : Tour) (x : TourStep) :
    s.Adds s.markup [x.deed] [x.stop] (s.record x) := by
  refine ⟨rfl, ?_, [x], rfl, rfl, rfl⟩
  simp [record, TourStep.deed]

end Tour

/-- Only elements have listeners. -/
theorem Policy.prepare_other {p : Policy} {c : Content} (hc : c.element? = none) (depth : Nat)
    (cs : List Markup) : p.prepare depth (.node c cs) = .node c cs := by
  rw [prepare]
  rintro _ e _ - ⟨⟩
  cases hc

namespace Filter

variable {f : Filter} {listeners : Element → List TreeListener}

/-! ## One node, and a row of nodes -/

/-- The tour has been through the node `t` at an address: as it has grown by then, it was decided on
and written, in place. If the listeners are those of the policy, it has grown as they prepare it. -/
def Toured (f : Filter) (listeners : Element → List TreeListener) (depth : Nat) (s : Tour)
    (address : List Nat) (t : Markup) (s' : Tour) : Prop :=
  ∃ parent? t', parent? = (s.markup.parentElement? address).map Element.name ∧ GrowsTo t t' ∧
    (listeners = f.policy.treeListeners → t' = f.policy.prepare depth t) ∧
    s.Adds (s.markup.put address (f.node parent? s.progress t').1)
      (f.nodeDeeds parent? s.progress.guard t')
      ((stops (f.node parent? s.progress t').1).map (.under address)) s'

/-- **A row of nodes**, the first of them behind those that are done. The induction is on the nodes
to come: they are where they were when the addresses were taken, whatever was done to the nodes
before. -/
theorem toured_row {depth : Nat} {visit : Tour → List Nat → Option Tour}
    (hvisit : ∀ {s address t s'}, s.markup.node? address = some t → Proper t →
      visit s address = some s' → f.Toured listeners depth s address t s')
    {address : List Nat} {c : Content} {done ts : List Markup} {s s' : Tour}
    (hts : ∀ t ∈ ts, Proper t) (hnode : s.markup.node? address = some (.node c (done ++ ts)))
    (h : ((List.range' done.length ts.length).map fun n => address ++ [n]).foldlM visit s =
      some s') :
    ∃ parent? ts', parent? = c.element?.map Element.name ∧ List.Forall₂ GrowsTo ts ts' ∧
      (listeners = f.policy.treeListeners → ts' = ts.map (f.policy.prepare depth)) ∧
      s.Adds (s.markup.put address (.node c (done ++ (f.nodes parent? s.progress ts').1)))
        (f.nodesDeeds parent? s.progress.guard ts')
        ((stopsAll done.length (f.nodes parent? s.progress ts').1).map (.under address)) s' := by
  induction ts generalizing done s with
  | nil =>
    obtain rfl : s = s' := Option.some.inj h
    refine ⟨_, [], rfl, .nil, fun _ => rfl, ?_⟩
    rw [nodes, nodesDeeds, stopsAll, List.map_nil, Tree.put_self hnode]
    exact .nothing s
  | cons t ts ih =>
    rw [List.length_cons, List.range'_succ, List.map_cons, List.foldlM_cons] at h
    obtain ⟨s₁, hfirst, hrest⟩ := Option.bind_eq_some_iff.1 h
    have hget : (done ++ t :: ts)[done.length]? = some t := by simp
    have hchild : s.markup.node? (address ++ [done.length]) = some t := by
      rw [Tree.node?_append, hnode, Option.bind_some, Tree.node?_cons hget, Tree.node?]
    obtain ⟨parent?, t', hparent, hgrow, hprepare, hadds⟩ :=
      hvisit hchild (hts t (List.mem_cons_self ..)) hfirst
    rw [Markup.parentElement?_eq hnode] at hparent
    have hput : s.markup.put (address ++ [done.length]) (f.node parent? s.progress t').1 =
        s.markup.put address (.node c ((done ++ [(f.node parent? s.progress t').1]) ++ ts)) := by
      rw [Tree.put_append hnode, Tree.put_cons hget, Tree.put_nil,
        List.set_append_right _ _ (by simp)]
      simp
    rw [hput] at hadds
    have hnode₁ : s₁.markup.node? address =
        some (.node c ((done ++ [(f.node parent? s.progress t').1]) ++ ts)) := by
      rw [hadds.markup, Tree.node?_put hnode]
    have hprogress : s₁.progress = (f.node parent? s.progress t').2 := by
      rw [hadds.progress, node_eq_deeds]
    obtain ⟨parent?', ts', hparent', hgrows, hprepares, hadds'⟩ :=
      ih (fun u hu => hts u (List.mem_cons_of_mem _ hu)) hnode₁ (by simpa using hrest)
    obtain rfl : parent?' = parent? := hparent'.trans hparent.symm
    refine ⟨parent?', t' :: ts', hparent, .cons hgrow hgrows, fun hpolicy => ?_, ?_⟩
    · rw [hprepare hpolicy, hprepares hpolicy, List.map_cons]
    · have hguard : s₁.progress.guard =
          Deed.guardAfter s.progress.guard (f.nodeDeeds parent?' s.progress.guard t') := by
        rw [hadds.progress]
      have hall := hadds.trans hadds'
      rw [hadds.markup, Tree.put_put hnode, hprogress, ← hprogress, hguard, hprogress] at hall
      rw [nodes, nodesDeeds, stopsAll, List.map_append, Stop.map_under_under]
      simpa using hall

/-- A node that is not an element is written as it is. -/
theorem toured_say {depth : Nat} {s : Tour} {address : List Nat} {c : Content} {cs : List Markup}
    (hnode : s.markup.node? address = some (.node c cs)) (hc : c.element? = none) {text : String}
    (htree : ∀ parent? p, f.node parent? p (.node c cs) = (.node c cs, p.write text))
    (hdeeds : ∀ parent? g, f.nodeDeeds parent? g (.node c cs) = [⟨none, text, g⟩]) :
    f.Toured listeners depth s address (.node c cs) (s.say address text) := by
  refine ⟨_, .node c cs, rfl, .refl _, fun _ => (Policy.prepare_other hc depth cs).symm, ?_⟩
  rw [htree, hdeeds, Markup.stops_other hc, Tree.put_self hnode, List.map_singleton, Stop.under,
    List.append_nil]
  exact s.adds_record { stop := { address := address }, written := text, guard := s.progress.guard }

/-- The start of an element leaves the verdict in the tree. -/
theorem adds_startAt {s : Tour} {address : List Nat} {e : Element} {cs : List Markup}
    (hnode : s.markup.node? address = some (.node (.element e) cs)) {parent? : Option String}
    (hparent : parent? = (s.markup.parentElement? address).map Element.name) :
    let v := f.judge s.progress.guard e parent? e.isNeverClosed
    (f.startAt s address e).1 = v ∧
      s.Adds (s.markup.put address (.node (.element v.element) cs))
        [⟨some (v.decision, v.element), f.renderStartTag v.element v.decision, v.guard⟩]
        [⟨address, false⟩] (f.startAt s address e).2 := by
  subst hparent
  refine ⟨rfl, ?_⟩
  rw [startAt]
  dsimp only
  rw [Markup.updateElement?_eq hnode]
  exact ⟨rfl, by simp [Tour.record], [_], rfl, rfl, rfl⟩

/-- The end of an element, which is as it was judged. -/
theorem adds_endAt {s : Tour} {address : List Nat} {v : Verdict} {cs : List Markup}
    (hnode : s.markup.node? address = some (.node (.element v.element) cs)) :
    s.Adds s.markup
      [⟨none, (f.closeElement v ⟨s.progress.guard, ""⟩).text,
        (f.closeElement v ⟨s.progress.guard, ""⟩).guard⟩]
      [⟨address, true⟩] (f.endAt s address v) := by
  have helement : s.markup.element? address = some v.element := Markup.element?_eq hnode
  rw [endAt, helement]
  exact s.adds_record { stop := ⟨address, true⟩, written := _, guard := _ }

/-- What listeners leave of an element in its place is how the policy prepares it. -/
theorem prepare_element {depth : Nat} {m : Markup} {address : List Nat} {e e' : Element}
    {cs cs' : List Markup} (hnode : m.node? address = some (.node (.element e) cs))
    (hlisten : (f.policy.treeListeners e).foldl (fun m l => l.onTree m address) m =
      m.put address (.node (.element e') cs')) :
    f.policy.prepare (depth + 1) (.node (.element e) cs) =
      .node (.element e') (cs'.map (f.policy.prepare depth)) := by
  rw [Policy.treeListeners, ElementListener.foldl_inTree _ hnode] at hlisten
  have hsame := congrArg (Tree.node? address) hlisten
  rw [Tree.node?_put hnode, Tree.node?_put hnode] at hsame
  obtain ⟨he, hcs⟩ := Tree.node.inj (Option.some.inj hsame)
  rw [Policy.prepare, ← Content.element.inj he, ← hcs]

/-- An element after its listeners: it is decided on, then the nodes in it are gone through, which
are a row, and then it ends, as it was judged. -/
theorem toured_element {depth : Nat}
    (hvisit : ∀ {s address t s'}, s.markup.node? address = some t → Proper t →
      f.tourNode listeners depth s address = some s' → f.Toured listeners depth s address t s')
    {s s₁ s' : Tour} {address : List Nat} {e : Element} {cs : List Markup} {v : Verdict}
    (hnode : s.markup.node? address = some (.node (.element e) cs)) (hcs : ∀ t ∈ cs, Proper t)
    (hstart : f.startAt s address e = (v, s₁))
    (h : ((s₁.markup.childAddresses address).foldlM (f.tourNode listeners depth) s₁).map
      (fun s₂ => f.endAt s₂ address v) = some s') :
    ∃ parent? ts, parent? = (s.markup.parentElement? address).map Element.name ∧
      List.Forall₂ GrowsTo cs ts ∧
      (listeners = f.policy.treeListeners → ts = cs.map (f.policy.prepare depth)) ∧
      s.Adds (s.markup.put address (f.node parent? s.progress (.node (.element e) ts)).1)
        (f.nodeDeeds parent? s.progress.guard (.node (.element e) ts))
        ((stops (f.node parent? s.progress (.node (.element e) ts)).1).map (.under address)) s' := by
  generalize hparent : (s.markup.parentElement? address).map Element.name = parent?
  obtain ⟨hverdict, hadds⟩ := adds_startAt (f := f) hnode hparent.symm
  rw [hstart] at hverdict hadds
  have hnode₁ : s₁.markup.node? address = some (.node (.element v.element) ([] ++ cs)) := by
    rw [hadds.markup, Tree.node?_put hnode, ← hverdict, List.nil_append]
  rw [Markup.childAddresses_eq hnode₁] at h
  obtain ⟨s₂, hrow, rfl⟩ := Option.map_eq_some_iff.1 h
  obtain ⟨name?, ts, hname, hgrows, hprepare, hinside⟩ := toured_row hvisit hcs hnode₁ hrow
  obtain rfl : name? = some v.element.name := hname
  have hnode₂ : s₂.markup.node? address = some (.node (.element v.element)
      ([] ++ (f.nodes (some v.element.name) s₁.progress ts).1)) := by
    rw [hinside.markup, Tree.node?_put hnode₁]
  have hend := adds_endAt (f := f) hnode₂
  refine ⟨parent?, ts, rfl, hgrows, hprepare, ?_⟩
  have hall := (hadds.trans hinside).trans hend
  have hstarted : s₁.progress = ({ s.progress with guard := v.guard } : Progress).write
      (f.renderStartTag v.element v.decision) := by
    rw [hadds.progress, ← hverdict]
    simp [Progress.write]
  have hguard : s₁.progress.guard = v.guard := by
    rw [hstarted, Progress.write]
  rw [hinside.markup, hinside.progress, hadds.markup, ← hverdict, Tree.put_put hnode, hguard,
    hstarted] at hall
  rw [node, nodeDeeds]
  dsimp only
  rw [← hverdict, stops]
  simpa [Stop.under] using hall

/-- **One node.** The induction is on the depth. The listeners of an element let it grow in its
place; after the verdict on it, the nodes in it are a row, and those stay where they are until the
tour is through. -/
theorem toured_tourNode (hgrows : ∀ e, ∀ l ∈ listeners e, l.OnlyGrows) (depth : Nat)
    {s : Tour} {address : List Nat} {t : Markup} {s' : Tour}
    (hnode : s.markup.node? address = some t) (ht : Proper t)
    (h : f.tourNode listeners depth s address = some s') :
    f.Toured listeners depth s address t s' := by
  induction depth generalizing s address t s' with
  | zero => cases h
  | succ depth ih =>
    obtain ⟨c, cs⟩ := t
    rw [tourNode, Markup.content?_eq hnode] at h
    cases c with
    | text raw =>
      obtain rfl := Option.some.inj h
      exact toured_say hnode rfl (fun _ _ => by rw [node]) fun _ _ => by rw [nodeDeeds]
    | comment body =>
      obtain rfl := Option.some.inj h
      exact toured_say hnode rfl (fun _ _ => by rw [node]) fun _ _ => by rw [nodeDeeds]
    | stray raw closing =>
      cases closing with
      | endTag name =>
        obtain rfl := Option.some.inj h
        exact toured_say hnode rfl (fun _ _ => by rw [node]) fun _ _ => by rw [nodeDeeds]
      | conditional =>
        obtain rfl := Option.some.inj h
        exact toured_say hnode rfl (fun _ _ => by rw [node]) fun _ _ => by rw [nodeDeeds]
    | fragment =>
      cases ht with
      | leaf hc => exact absurd rfl hc
    | element e =>
      obtain ⟨e', cs', hcs, hlisten⟩ := TreeListener.foldl_onTree (hgrows e) hnode ht.inside
      generalize hs₁ : s.listen (listeners e) address = s₁ at h
      have hmarkup₁ : s₁.markup = s.markup.put address (.node (.element e') cs') := by
        rw [← hs₁, ← hlisten, Tour.listen]
      have hprogress₁ : s₁.progress = s.progress := by
        rw [← hs₁, Tour.listen]
      have hnode₁ : s₁.markup.node? address = some (.node (.element e') cs') := by
        rw [hmarkup₁, Tree.node?_put hnode]
      have helement₁ : s₁.markup.element? address = some e' := Markup.element?_eq hnode₁
      dsimp only at h
      rw [hs₁, helement₁] at h
      dsimp only at h
      have hproper := hcs.proper ht.inside
      obtain ⟨parent?, ts, hparent, hgrows', hprepare, hadds⟩ :=
        toured_element ih hnode₁ hproper rfl h
      rw [hmarkup₁, Markup.parentElement?_put hnode] at hparent
      rw [hmarkup₁, Tree.put_put hnode, hprogress₁] at hadds
      refine ⟨parent?, .node (.element e') ts, hparent, ?_, fun hpolicy => ?_, ?_⟩
      · exact Markup.growsTo_element_iff.2 ⟨e', ts, rfl, hcs.trans (.of_forall₂ hgrows')⟩
      · rw [hprepare hpolicy]
        rw [hpolicy] at hlisten
        exact (prepare_element hnode hlisten).symm
      · have hsteps₁ : s₁.steps = s.steps := by
          rw [← hs₁, Tour.listen]
        obtain ⟨hmarkup, hprogress, hsteps⟩ := hadds
        rw [hprogress₁] at hprogress
        rw [hsteps₁] at hsteps
        exact ⟨hmarkup, hprogress, hsteps⟩

/-! ## Depth -/

/-- What ends in a row of visits ends the same if the visits do. -/
theorem foldlM_mono {α β : Type} {visit visit' : β → α → Option β}
    (hvisit : ∀ s x s', visit s x = some s' → visit' s x = some s') {xs : List α} {s s' : β}
    (h : xs.foldlM visit s = some s') : xs.foldlM visit' s = some s' := by
  induction xs generalizing s with
  | nil => exact h
  | cons x xs ih =>
    rw [List.foldlM_cons] at h ⊢
    obtain ⟨s₁, hfirst, hrest⟩ := Option.bind_eq_some_iff.1 h
    exact Option.bind_eq_some_iff.2 ⟨s₁, hvisit s x s₁ hfirst, ih hrest⟩

/-- A tour that ends is the same if it may go deeper. -/
theorem tourNode_mono {depth depth' : Nat} (hle : depth ≤ depth') {s : Tour} {address : List Nat}
    {s' : Tour} (h : f.tourNode listeners depth s address = some s') :
    f.tourNode listeners depth' s address = some s' := by
  induction depth generalizing depth' s address s' with
  | zero => cases h
  | succ depth ih =>
    obtain ⟨depth', rfl⟩ := Nat.exists_eq_add_of_le' (Nat.lt_of_lt_of_le (Nat.succ_pos depth) hle)
    rw [tourNode] at h ⊢
    cases hcontent : s.markup.content? address with
    | none => rwa [hcontent] at h
    | some c =>
      rw [hcontent] at h
      cases c with
      | element e =>
        dsimp only at h ⊢
        cases helement : (s.listen (listeners e) address).markup.element? address with
        | none => rwa [helement] at h
        | some e' =>
          rw [helement] at h
          dsimp only at h ⊢
          obtain ⟨s₂, hrow, rfl⟩ := Option.map_eq_some_iff.1 h
          refine Option.map_eq_some_iff.2 ⟨s₂, foldlM_mono (fun s x s' hx => ?_) hrow, rfl⟩
          exact ih (Nat.le_of_succ_le_succ hle) hx
      | stray raw closing => cases closing <;> exact h
      | _ => exact h

theorem tour_mono {depth depth' : Nat} (hle : depth ≤ depth') {m : Markup} {s : Tour}
    (h : f.tour listeners depth m = some s) : f.tour listeners depth' m = some s :=
  foldlM_mono (fun _ _ _ hx => tourNode_mono hle hx) h

/-! ## Whole trees -/

mutual

/-- Nodes stay in their places when they are decided on. -/
theorem proper_node (parent? : Option String) (p : Progress) {t : Markup} (ht : Proper t) :
    Proper (f.node parent? p t).1 := by
  match t with
  | .node (.text raw) cs => exact ht
  | .node (.stray raw (.endTag name)) cs => exact ht
  | .node (.stray raw .conditional) cs => exact ht
  | .node (.comment body) cs => exact ht
  | .node .fragment cs => exact ht
  | .node (.element e) cs => exact .element (proper_nodes _ _ ht.inside)

theorem proper_nodes (parent? : Option String) (p : Progress) {ts : List Markup}
    (hts : ∀ t ∈ ts, Proper t) : ∀ t ∈ (f.nodes parent? p ts).1, Proper t := by
  match ts with
  | [] => exact hts
  | t :: ts =>
    intro x hx
    rcases List.mem_cons.1 hx with rfl | hx
    · exact proper_node parent? p (hts t (List.mem_cons_self ..))
    · exact proper_nodes parent? _ (fun y hy => hts y (List.mem_cons_of_mem _ hy)) x hx

end

/-- A tour through the nodes below a root. -/
theorem toured_tour (hgrows : ∀ e, ∀ l ∈ listeners e, l.OnlyGrows) {depth : Nat}
    {ts : List Markup} (hts : ∀ t ∈ ts, Proper t) {s : Tour}
    (h : f.tour listeners depth (.node .fragment ts) = some s) :
    ∃ ts', List.Forall₂ GrowsTo ts ts' ∧
      (listeners = f.policy.treeListeners → ts' = ts.map (f.policy.prepare depth)) ∧
      Tour.Adds { markup := .node .fragment ts } (.node .fragment (f.nodes none {} ts').1)
        (f.nodesDeeds none {} ts') (stopsAll 0 (f.nodes none {} ts').1) s := by
  have hroot : (Tree.node Content.fragment ts).node? [] =
      some (.node .fragment ([] ++ ts)) := rfl
  rw [tour, Markup.childAddresses_eq hroot] at h
  obtain ⟨parent?, ts', hparent, hgrow, hprepare, hadds⟩ :=
    toured_row (s := { markup := .node .fragment ts })
      (fun hnode ht h => toured_tourNode hgrows depth hnode ht h) hts hroot h
  obtain rfl : parent? = none := hparent
  refine ⟨ts', hgrow, hprepare, ?_⟩
  simpa [Stop.map_under_nil] using hadds

end Filter

/-- The nodes that the tour has come to, in order. -/
def Tour.visited (s : Tour) : List (List Nat) :=
  Stop.starts (s.steps.map TourStep.stop)

/-- The tour of a filter has gone through `nodes`, as listeners left them: it has been everywhere in
the tree that it leaves, and written what it decided there. -/
structure Tour.Covers (s : Tour) (f : Filter) (nodes : List Markup) : Prop where
  /-- The tree that it leaves is that of the nodes with what was decided. -/
  markup : s.markup = .node .fragment (f.nodes none {} nodes).1
  /-- It has come to the nodes below the root, and to nothing else. -/
  visited : ∀ address, address ∈ s.visited ↔ address ≠ [] ∧ (s.markup.node? address).isSome
  /-- It has come to each of them once, before those below it and before those to its right. -/
  ordered : s.visited.Pairwise (· < ·)
  /-- It has stopped at the end of each element, right after all that is in it. -/
  stops : s.steps.map TourStep.stop = stopsAll 0 s.markup.children
  /-- What was done at the stops is what the filter does at the nodes. -/
  deeds : s.steps.map TourStep.deed = f.nodesDeeds none {} nodes
  /-- The text is what was written at the stops, in their order. -/
  text : s.progress.text = String.join (s.steps.map TourStep.written)

namespace Filter

variable {f : Filter} {listeners : Element → List TreeListener}

/-- What a tour has added to a proper tree covers the tree that it leaves. -/
theorem covers_of_adds {m : Markup} {ts : List Markup} (hts : ∀ t ∈ ts, Proper t) {s : Tour}
    (h : Tour.Adds { markup := m } (.node .fragment (f.nodes none {} ts).1) (f.nodesDeeds none {} ts)
      (stopsAll 0 (f.nodes none {} ts).1) s) : s.Covers f ts := by
  obtain ⟨hmarkup, hprogress, new, hsteps, hdeeds, hstops⟩ := h
  rw [List.nil_append] at hsteps
  subst hsteps
  have hproper := proper_nodes (f := f) none {} hts
  refine ⟨hmarkup, fun address => ?_, ?_, ?_, hdeeds, ?_⟩
  · rw [Tour.visited, hstops, Markup.mem_startsAll_iff hproper, hmarkup]
    cases address with
    | nil => simp
    | cons n rest =>
      rw [Tree.node?]
      simp
  · rw [Tour.visited, hstops]
    exact Markup.pairwise_startsAll 0 _
  · rw [hstops, hmarkup, Tree.children]
  · rw [hprogress, ← hdeeds, Deed.text, List.map_map]
    exact String.empty_append

/-- **A tour misses nothing that listeners add.** Let listeners, which may look at the whole tree,
rewrite the elements that they are called on with those below, and add nodes behind the nodes in them,
and let the tour through the tree of a text end. Then what is in that tree has grown, and the tour has
come to every node below the root of the tree that it leaves, to each of them once, in their order,
and to the end of each element right after all that is in it. What it has written there is what the
filter does at the nodes, and makes up the text. For listeners of the policy, that is the filtered
tree with its text.

*Proof sketch.* When the tour leaves a node, that node has been replaced in its place by what is
decided on it, as it has grown by then, and the rest of the tree is as it was (`toured_tourNode`).
So the nodes that were counted in an element are where they were when their turn comes
(`toured_row`). -/
theorem toured_parse (hgrows : ∀ e, ∀ l ∈ listeners e, l.OnlyGrows) {input : String} {depth : Nat}
    {s : Tour} (h : f.tour listeners depth (Markup.parse input) = some s) :
    ∃ nodes, List.Forall₂ GrowsTo (Markup.parse input).children nodes ∧ s.Covers f nodes ∧
      (listeners = f.policy.treeListeners → depth ≤ Policy.listenerDepth →
        f.tree (Markup.parse input) = (s.markup, s.progress.text)) := by
  have hparse : Markup.parse input = .node .fragment (Markup.parse input).children := rfl
  have hproper := Markup.proper_parse input
  generalize (Markup.parse input).children = ts at hparse hproper ⊢
  rw [hparse] at h ⊢
  obtain ⟨nodes, hgrow, -, hadds⟩ := toured_tour hgrows hproper h
  refine ⟨nodes, hgrow, covers_of_adds (AllGrowTo.proper (.of_forall₂ hgrow) hproper) hadds,
    fun hpolicy hle => ?_⟩
  -- a deeper tour is the same one, and shows the nodes as they are prepared
  obtain ⟨nodes', -, hprepare, hadds'⟩ := toured_tour hgrows hproper (tour_mono hle h)
  rw [tree, ← hprepare hpolicy, hadds'.markup, hadds'.progress]
  dsimp only
  rw [nodes_eq_deeds]

/-- A filter whose listeners add to elements: an `i` to every `b`, and a text to every `i`, which is
renamed. -/
def signing : Filter where
  policy :=
    { elements := ⟨[
        ("b", { name := "b", listeners := [
          { onSubtree := fun e cs => (e, cs ++ [.leaf (.element { name := "i" })]) }] }),
        ("i", { name := "i", listeners := [
          { onSubtree := fun e cs => ({ e with name := "em" }, cs ++ [.leaf (.text "<")]) }] }),
        ("em", { name := "em" })]⟩
      attributes := ⟨[]⟩ }

/-- What the listener of the `b` adds is seen by the listener of the `i`, and what that adds is
escaped, before the end of the `b`. -/
theorem toured_parse_signing :
    (∀ e, ∀ l ∈ signing.policy.treeListeners e, l.OnlyGrows) ∧
      ∃ s, signing.tour signing.policy.treeListeners 3 (Markup.parse "<b>x</b>y") = some s ∧
        s.visited = [[0], [0, 0], [0, 1], [0, 1, 0], [1]] ∧
        s.progress.text = "<b>x<em>&lt;</b>y" ∧
        (∃ nodes, List.Forall₂ GrowsTo (Markup.parse "<b>x</b>y").children nodes ∧
          s.Covers signing nodes) ∧
        signing.tree (Markup.parse "<b>x</b>y") = (s.markup, s.progress.text) := by
  have hgrows : ∀ e, ∀ l ∈ signing.policy.treeListeners e, l.OnlyGrows := by
    have helements : signing.policy.elements.Every fun rule => ∀ l ∈ rule.listeners, ∀ e cs,
        (∀ t ∈ cs, Proper t) → AllGrowTo cs (l.onSubtree e cs).2 := by
      simp [RuleTable.Every, signing, AllGrowTo.append, Tree.leaf, Proper.leaf]
    exact Policy.onlyGrows_treeListeners fun _ _ hrule => helements.of_find? hrule
  have htour : (signing.tour signing.policy.treeListeners 3 (Markup.parse "<b>x</b>y")).map
      (fun s => (s.visited, s.progress.text)) =
        some ([[0], [0, 0], [0, 1], [0, 1, 0], [1]], "<b>x<em>&lt;</b>y") := by
    decide +kernel
  obtain ⟨s, hs, hseen⟩ := Option.map_eq_some_iff.1 htour
  obtain ⟨hvisited, htext⟩ := Prod.mk.inj hseen
  obtain ⟨nodes, hnodes, hcovers, htree⟩ := toured_parse hgrows hs
  exact ⟨hgrows, s, hs, hvisited, htext, ⟨nodes, hnodes, hcovers⟩, htree rfl (by decide)⟩

end Filter

end MarkupFilter
