import MarkupFilter.Proofs.Filter.Scenes

/-!
# Which objects are open

The guard tells open objects apart by keys, which it gives out in the order in which the objects are
opened. Along a row of events its keys are those of the objects that were started and have not ended
since, whatever else is open; and an end tag in its place closes the innermost of them.

## Main definitions

* `Scene.Sound` — the guard knows the open objects of a scene by their keys.

## Main results

* `Scene.Sound.networking`, `Scene.Sound.endObject` — what the guard says, by the open objects.
* `Filter.mem_objects_after` — an object is open until it ends.
* `Filter.head_objects_of_ended` — an end tag in its place closes the innermost object.
-/

set_option autoImplicit false

namespace MarkupFilter

open Event

namespace Scene

/-! ## Keys -/

theorem lt_of_key? {s : Scene} {number key : Nat} (h : s.key? number = some key) :
    number < s.nodes.length := by
  by_contra hge
  rw [key?, node?, List.getElem?_eq_none (Nat.le_of_not_lt hge)] at h
  cases h

theorem node?_enter (s : Scene) (v : Filter.Verdict) (number : Nat) : (s.enter v).node? number =
    if number = s.nodes.length then some v.opened else s.node? number := by
  rw [node?, enter]
  by_cases heq : number = s.nodes.length
  · subst heq
    rw [if_pos rfl, List.getElem?_concat_length]
    rfl
  · rw [if_neg heq, node?, List.getElem?_append]
    split
    · rfl
    · rw [List.getElem?_eq_none (by simp; omega), List.getElem?_eq_none (by omega)]

@[simp] theorem node?_pass (s : Scene) (number : Nat) : s.pass.node? number = s.node? number := by
  rw [node?, node?, pass, List.getElem?_append]
  split
  · rfl
  · rw [List.getElem?_eq_none (l := s.nodes) (by omega)]
    cases hlast : ([none] : List (Option OpenedElement))[number - s.nodes.length]? with
    | none => rfl
    | some x => rw [List.mem_singleton.1 (List.mem_of_getElem? hlast)]; rfl

@[simp] theorem node?_leave (s : Scene) (n number : Nat) :
    (s.leave n).node? number = s.node? number := rfl

theorem key?_enter (s : Scene) (v : Filter.Verdict) (number : Nat) :
    (s.enter v).key? number = if number = s.nodes.length then v.objectKey? else s.key? number := by
  rw [key?, node?_enter]
  split <;> rfl

@[simp] theorem key?_pass (s : Scene) (number : Nat) : s.pass.key? number = s.key? number := by
  rw [key?, node?_pass, key?]

@[simp] theorem key?_leave (s : Scene) (n number : Nat) :
    (s.leave n).key? number = s.key? number := rfl

/-! ## Sound scenes -/

/-- The open frames of the guard are those of the open objects, inner objects have higher numbers
and higher keys, and keys that were not given out yet are higher still. -/
structure Sound (s : Scene) : Prop where
  keys : s.guard.openKeys.map some = s.objects.map s.key?
  descending : s.objects.Pairwise fun m n => n < m
  increasing : ∀ m n k k', m < n → s.key? m = some k → s.key? n = some k' → k < k'
  below : ∀ n k, s.key? n = some k → k < s.guard.nextKey

namespace Sound

variable {s : Scene}

theorem empty : Sound {} :=
  ⟨rfl, .nil, (fun _ _ _ _ _ h => nomatch h), fun _ _ h => nomatch h⟩

theorem nodup (h : s.Sound) : s.objects.Nodup :=
  h.descending.imp fun hlt => Nat.ne_of_gt hlt

/-- An open object has a key, which is open. -/
theorem exists_key (h : s.Sound) {number : Nat} (hmem : number ∈ s.objects) :
    ∃ key, s.key? number = some key ∧ key ∈ s.guard.openKeys := by
  have hkey : s.key? number ∈ s.objects.map s.key? := List.mem_map_of_mem hmem
  rw [← h.keys] at hkey
  obtain ⟨key, hopen, heq⟩ := List.mem_map.1 hkey
  exact ⟨key, heq.symm, hopen⟩

/-- Keys tell objects apart. -/
theorem key?_inj (h : s.Sound) {m n key : Nat} (hm : s.key? m = some key)
    (hn : s.key? n = some key) : m = n := by
  rcases Nat.lt_trichotomy m n with hlt | heq | hlt
  · exact absurd (h.increasing m n key key hlt hm hn) (Nat.lt_irrefl _)
  · exact heq
  · exact absurd (h.increasing n m key key hlt hn hm) (Nat.lt_irrefl _)

theorem enter (h : s.Sound) {v : Filter.Verdict}
    (hv : (v.objectKey? = none ∧ v.guard.openKeys = s.guard.openKeys ∧
        v.guard.nextKey = s.guard.nextKey) ∨
      (v.objectKey? = some s.guard.nextKey ∧ v.guard = s.guard.open.2)) : (s.enter v).Sound := by
  have hold : ∀ n ∈ s.objects, (s.enter v).key? n = s.key? n := by
    intro n hn
    obtain ⟨key, hkey, -⟩ := h.exists_key hn
    rw [key?_enter, if_neg (Nat.ne_of_lt (lt_of_key? hkey))]
  have hmap : s.objects.map (s.enter v).key? = s.objects.map s.key? := List.map_congr_left hold
  have hnext : s.guard.nextKey ≤ v.guard.nextKey := by
    rcases hv with ⟨-, -, heq⟩ | ⟨-, heq⟩
    · exact Nat.le_of_eq heq.symm
    · rw [heq]
      exact Nat.le_succ _
  refine ⟨?_, ?_, fun m n k k' hlt hm hn => ?_, fun n k hn => ?_⟩
  · rcases hv with ⟨hnone, hopen, -⟩ | ⟨hsome, hguard⟩
    · simp only [Scene.enter, hnone, Option.isSome_none, hopen] at hmap ⊢
      exact h.keys.trans hmap.symm
    · have hnew : (s.enter v).key? s.nodes.length = some s.guard.nextKey := by
        rw [key?_enter, if_pos rfl, hsome]
      have hobjects : (s.enter v).objects = s.nodes.length :: s.objects := by
        simp [Scene.enter, hsome]
      have hkeys : (s.enter v).guard.openKeys = s.guard.nextKey :: s.guard.openKeys := by
        simp [Scene.enter, hguard, ObjectGuard.open]
      rw [hobjects, hkeys, List.map_cons, List.map_cons, hnew, hmap, h.keys]
  · simp only [Scene.enter]
    split
    · refine List.pairwise_cons.2 ⟨fun n hn => ?_, h.descending⟩
      obtain ⟨key, hkey, -⟩ := h.exists_key hn
      exact lt_of_key? hkey
    · exact h.descending
  · rw [key?_enter] at hm hn
    split at hm
    · next heq =>
      have hkey : (s.enter v).key? n = some k' := by rw [key?_enter, hn]
      have hlt' := lt_of_key? hkey
      rw [Scene.enter, List.length_append, List.length_singleton] at hlt'
      omega
    · split at hn
      · rcases hv with ⟨hnone, -⟩ | ⟨hsome, -⟩
        · rw [hnone] at hn
          cases hn
        · rw [hsome] at hn
          cases hn
          exact h.below m k hm
      · exact h.increasing m n k k' hlt hm hn
  · rw [key?_enter] at hn
    split at hn
    · rcases hv with ⟨hnone, -⟩ | ⟨hsome, hguard⟩
      · rw [hnone] at hn
        cases hn
      · rw [hsome] at hn
        cases hn
        rw [Scene.enter, hguard]
        exact Nat.lt_succ_self _
    · exact Nat.lt_of_lt_of_le (h.below n k hn) hnext

theorem pass (h : s.Sound) : s.pass.Sound := by
  have hkey : s.pass.key? = s.key? := funext fun n => key?_pass s n
  exact ⟨by rw [hkey]; exact h.keys, h.descending, by rw [hkey]; exact h.increasing,
    by rw [hkey]; exact h.below⟩

/-- Taking an object out takes its key out. -/
theorem erase_key {objects keys : List Nat} {key? : Nat → Option Nat}
    (h : keys.map some = objects.map key?) {number key : Nat} (hkey : key? number = some key)
    (hinj : ∀ n ∈ objects, key? n = some key → n = number) :
    (keys.erase key).map some = (objects.erase number).map key? := by
  induction objects generalizing keys with
  | nil =>
    rw [List.map_nil, List.map_eq_nil_iff] at h
    rw [h]
    rfl
  | cons n objects ih =>
    obtain ⟨k, keys, rfl, hk, hrest⟩ : ∃ k keys', keys = k :: keys' ∧ some k = key? n ∧
        keys'.map some = objects.map key? := by
      cases keys with
      | nil => cases h
      | cons k keys =>
        rw [List.map_cons, List.map_cons, List.cons.injEq] at h
        exact ⟨k, keys, rfl, h.1, h.2⟩
    by_cases hn : n = number
    · subst hn
      obtain rfl : k = key := Option.some.inj (hk.trans hkey)
      rw [List.erase_cons_head, List.erase_cons_head, hrest]
    · have hne : k ≠ key := fun heq => hn (hinj n (List.mem_cons_self ..) (by rw [← hk, heq]))
      rw [List.erase_cons_tail (by simpa using hne), List.erase_cons_tail (by simpa using hn),
        List.map_cons, List.map_cons, hk,
        ih hrest fun m hm => hinj m (List.mem_cons_of_mem _ hm)]

theorem leave (h : s.Sound) (number : Nat) : (s.leave number).Sound := by
  refine ⟨?_, h.descending.sublist List.erase_sublist, h.increasing, fun n k hn => ?_⟩
  · rw [Scene.leave, Filter.endObject_guard]
    show (((s.key? number).map s.guard.openKeys.erase).getD s.guard.openKeys).map some =
      (s.objects.erase number).map s.key?
    cases hkey : s.key? number with
    | none =>
      have hnot : number ∉ s.objects := by
        intro hmem
        obtain ⟨key, hsome, -⟩ := h.exists_key hmem
        rw [hkey] at hsome
        cases hsome
      rw [List.erase_of_not_mem hnot]
      exact h.keys
    | some key => exact erase_key h.keys hkey fun n _ hn => h.key?_inj hn hkey
  · rw [Scene.leave, Filter.endObject_guard]
    exact h.below n k hn

/-! ### What the guard says -/

/-- The innermost frame is that of the innermost object. -/
theorem head_openKeys (h : s.Sound) :
    s.guard.openKeys.head? = s.objects.head?.bind s.key? := by
  have hkeys := congrArg List.head? h.keys
  rw [List.head?_map, List.head?_map] at hkeys
  cases hobjects : s.objects.head? with
  | none =>
    rw [hobjects, Option.map_none, Option.map_eq_none_iff] at hkeys
    rw [hkeys, Option.bind_none]
  | some n =>
    rw [hobjects, Option.map_some, Option.map_eq_some_iff] at hkeys
    obtain ⟨key, hkey, hn⟩ := hkeys
    rw [hkey, Option.bind_some, hn]

/-- How far the innermost open object may use the network. -/
theorem networking (h : s.Sound) : s.guard.networking =
    (((s.objects.head?.bind s.key?).map s.guard.networkingIn).getD .internal) := by
  rw [← h.head_openKeys, ObjectGuard.networking]
  cases s.guard.openKeys <;> rfl

/-- What is written before the end tag of an open object. -/
theorem endObject (h : s.Sound) {number key : Nat} (hmem : number ∈ s.objects)
    (hkey : s.key? number = some key) :
    (Filter.endObject s.guard (some key) true).1 = (s.guard.frame key).missing := by
  obtain ⟨key', hkey', hopen⟩ := h.exists_key hmem
  obtain rfl : key' = key := Option.some.inj (hkey'.symm.trans hkey)
  rw [Filter.endObject, ObjectGuard.close, if_pos (List.contains_iff_mem.2 hopen)]
  rfl

/-- Inner objects have higher keys. -/
theorem key_le (h : s.Sound) {m n k k' : Nat} (hhead : s.objects.head? = some n)
    (hm : m ∈ s.objects) (hk : s.key? m = some k) (hk' : s.key? n = some k') : k ≤ k' := by
  have hdescending := h.descending
  obtain ⟨objects, hobjects⟩ := List.head?_eq_some_iff.1 hhead
  rw [hobjects] at hm hdescending
  rcases List.mem_cons.1 hm with rfl | hmem
  · exact Nat.le_of_eq (Option.some.inj (hk.symm.trans hk'))
  · exact Nat.le_of_lt
      (h.increasing m n k k' ((List.pairwise_cons.1 hdescending).1 m hmem) hk hk')

end Sound

end Scene

namespace Filter

variable {f : Filter}

theorem sound_act {s : Scene} (h : s.Sound) (x : Event) : (f.act s x).Sound := by
  cases x with
  | node c =>
    by_cases hcontent : ∃ e, c = .element e
    · obtain ⟨e, rfl⟩ := hcontent
      exact h.enter (f.judge_frames s.guard e none false)
    · rw [(act_other s fun e he => hcontent ⟨e, he⟩).1]
      exact h.pass
  | ended number => exact h.leave number
  | dropped number => exact h.leave number

/-- **Along a row of events, the guard knows the open objects by their keys.** -/
theorem sound_after {s : Scene} (h : s.Sound) (xs : List Event) : (f.after s xs).Sound := by
  induction xs generalizing s with
  | nil => exact h
  | cons x xs ih => exact ih (sound_act h x)

/-! ## Open until the end -/

theorem length_nodes_after (xs : List Event) :
    (f.after {} xs).nodes.length = (contents xs).length := by
  obtain ⟨new, hnodes, hlength⟩ := exists_nodes_after (f := f) {} xs
  rw [hnodes, ← hlength]
  rfl

/-- Keys of nodes stay. -/
theorem key?_after (s : Scene) (xs : List Event) {number : Nat} (h : number < s.nodes.length) :
    (f.after s xs).key? number = s.key? number := by
  rw [Scene.key?, Scene.key?, node?_after s xs h]

/-- **An object is open until it ends.** -/
theorem mem_objects_after {xs : List Event} (h : Follow 0 xs) {number : Nat} :
    number ∈ (f.after {} xs).objects ↔
      ((f.after {} xs).key? number).isSome = true ∧ number ∉ ends xs := by
  induction xs using List.reverseRecOn with
  | nil => simp [Scene.key?, Scene.node?]
  | append_singleton xs x ih =>
    have hfollow := (follow_append.1 h).1
    have ih := ih hfollow
    have hnew : (contents xs).length ∉ ends xs := fun hmem =>
      absurd (lt_of_mem_ends hfollow hmem) (by omega)
    have hsound : (f.after {} xs).Sound := sound_after .empty xs
    rw [after_append, after_cons, after_nil, ends_append, List.mem_append, not_or]
    cases x with
    | node c =>
      rw [ends_node, ends_nil]
      by_cases hcontent : ∃ e, c = .element e
      · obtain ⟨e, rfl⟩ := hcontent
        rw [act]
        by_cases hnumber : number = (f.after {} xs).nodes.length
        · have hold : number ∉ (f.after {} xs).objects := by
            rw [ih, hnumber]
            intro hopen
            obtain ⟨key, hkey⟩ := Option.isSome_iff_exists.1 hopen.1
            exact Nat.lt_irrefl _ (Scene.lt_of_key? hkey)
          rw [Scene.key?_enter, if_pos hnumber, Scene.enter]
          rw [length_nodes_after] at hnumber
          subst hnumber
          cases hkey : (f.judge (f.after {} xs).guard e none false).objectKey? with
          | none => simp [hold]
          | some key => simp [hnew, length_nodes_after]
        · rw [Scene.key?_enter, if_neg hnumber, Scene.enter]
          cases hkey : (f.judge (f.after {} xs).guard e none false).objectKey? with
          | none => simp [ih]
          | some key => simp [ih, hnumber]
      · rw [(act_other _ fun e he => hcontent ⟨e, he⟩).1, Scene.key?_pass]
        simp [Scene.pass, ih]
    | ended n =>
      rw [act, Scene.key?_leave, Scene.leave, ends_ended, ends_nil, List.mem_singleton]
      dsimp only
      rw [hsound.nodup.mem_erase_iff, ih]
      tauto
    | dropped n =>
      rw [act, Scene.key?_leave, Scene.leave, ends_dropped, ends_nil, List.mem_singleton]
      dsimp only
      rw [hsound.nodup.mem_erase_iff, ih]
      tauto

/-! ## What objects are -/

/-- An element with a frame is an object that waits for its end tag. -/
theorem object_of_objectKey (hf : f.policy.HasLocalListeners) {g : ObjectGuard} {e : Element}
    (hread : (Content.element e).WellRead) {key : Nat}
    (hkey : (f.judge g e none false).objectKey? = some key) :
    e.isNamed "object" = true ∧ Waits e ∧ key = g.nextKey := by
  have hallowed : (f.judge g e none false).decision = .allowed := by
    by_contra hd
    have hnone : (f.judge g e none false).objectKey? = none := by
      have hdecision : (f.decide e none false).1 ≠ .allowed := hd
      simp only [judge, protect_of_not_allowed g _ hdecision]
    rw [hnone] at hkey
    cases hkey
  have hguards := guards_judge hallowed
  have hframe := hguards.opensFrame_of_key (by rw [hkey]; rfl)
  have htag := sameTag_judge hf g e none false
  have hopens : e.isNamed "object" = true ∧ e.selfClosed = false := by
    simp only [opensFrame, Bool.and_eq_true, Bool.not_eq_true', htag.selfClosed] at hframe
    rw [Element.isNamed, htag.name] at hframe
    exact hframe.2
  refine ⟨hopens.1, ⟨?_, hopens.2⟩, ?_⟩
  · rcases hread with ⟨hc, -⟩ | ⟨condition, hc, hname, -⟩
    · exact hc
    · have hconditional := judge_conditional hf g (e := e) (by rw [Element.isConditional, hc]; rfl)
        hname none false
      rw [hconditional] at hkey
      cases hkey
  · have hsome := hguards.key
    rw [if_pos hframe, hkey] at hsome
    exact Option.some.inj hsome

/-- What is remembered of a node is what was decided on the element that was read there. -/
theorem exists_element_of_node? {xs : List Event} {number : Nat} {x : OpenedElement}
    (h : (f.after {} xs).node? number = some x) :
    ∃ e g, (contents xs)[number]? = some (.element e) ∧ x = (f.judge g e none false).opened := by
  induction xs using List.reverseRecOn with
  | nil => cases h
  | append_singleton xs y ih =>
    have hold : (f.after {} xs).node? number = some x → ∃ e g,
        (contents (xs ++ [y]))[number]? = some (.element e) ∧
          x = (f.judge g e none false).opened := by
      intro h
      obtain ⟨e, g, he, hx⟩ := ih h
      refine ⟨e, g, ?_, hx⟩
      rw [contents_append, List.getElem?_append_left (List.getElem?_eq_some_iff.1 he).1, he]
    rw [after_append, after_cons, after_nil] at h
    cases y with
    | node c =>
      by_cases hcontent : ∃ e, c = .element e
      · obtain ⟨e, rfl⟩ := hcontent
        rw [act, Scene.node?_enter] at h
        split at h
        · next hnumber =>
          refine ⟨e, (f.after {} xs).guard, ?_, (Option.some.inj h).symm⟩
          rw [hnumber, length_nodes_after, contents_append, contents_node, contents_nil,
            List.getElem?_concat_length]
        · exact hold h
      · rw [(act_other _ fun e he => hcontent ⟨e, he⟩).1, Scene.node?_pass] at h
        exact hold h
    | ended n => exact hold h
    | dropped n => exact hold h

/-- A node that has a key is an object. -/
theorem exists_object_of_key (hf : f.policy.HasLocalListeners) {xs : List Event}
    (hread : ∀ c ∈ contents xs, c.WellRead) {number key : Nat}
    (hkey : (f.after {} xs).key? number = some key) :
    ∃ e, (contents xs)[number]? = some (.element e) ∧ e.isNamed "object" = true ∧ Waits e := by
  obtain ⟨x, hnode, hx⟩ := Option.bind_eq_some_iff.1 hkey
  obtain ⟨e, g, he, rfl⟩ := exists_element_of_node? hnode
  obtain ⟨hobject, hwaits, -⟩ :=
    object_of_objectKey hf (hread _ (List.mem_of_getElem? he)) hx
  exact ⟨e, he, hobject, hwaits⟩

/-- **An end tag in its place closes the innermost open object**, if it is the end tag of an
object. -/
theorem head_objects_of_ended (hf : f.policy.HasLocalListeners) {xs before after : List Event}
    (hxs : Event.WellRead xs) {number : Nat} (hsplit : xs = before ++ .ended number :: after)
    (hmem : number ∈ (f.after {} before).objects) :
    (f.after {} before).objects.head? = some number := by
  have hfollow : Follow 0 before := (follow_append.1 (hsplit ▸ hxs.follow)).1
  have hread' : ∀ c ∈ contents before, c.WellRead := by
    intro c hc
    refine hxs.content c ?_
    rw [hsplit, contents_append]
    exact List.mem_append_left _ hc
  have hsound : (f.after {} before).Sound := sound_after .empty before
  obtain ⟨n, objects, hobjects⟩ := List.exists_cons_of_ne_nil (List.ne_nil_of_mem hmem)
  rw [hobjects, List.head?_cons]
  rw [hobjects] at hmem
  rcases List.mem_cons.1 hmem with rfl | hinner
  · rfl
  · -- the head would be an object that was opened later and has not ended
    have hdescending := hsound.descending
    rw [hobjects] at hdescending
    have hlt : number < n := (List.pairwise_cons.1 hdescending).1 number hinner
    have hn : n ∈ (f.after {} before).objects := hobjects ▸ List.mem_cons_self ..
    have hnumber : number ∈ (f.after {} before).objects := hobjects ▸ hmem
    obtain ⟨key, hkey, -⟩ := hsound.exists_key hn
    obtain ⟨key', hkey', -⟩ := hsound.exists_key hnumber
    obtain ⟨e', he', hobject', hwaits'⟩ := exists_object_of_key hf hread' hkey
    obtain ⟨e, he, hobject, -⟩ := exists_object_of_key hf hread' hkey'
    obtain ⟨x, hx, -, hinnermost⟩ := hxs.innermost before after number hsplit
    obtain rfl : e = x := by
      rw [he] at hx
      injection hx with hx
      injection hx
    have hname : AsciiCase.lower e'.name = AsciiCase.lower e.name :=
      ((AsciiCase.same_iff ..).1 hobject').trans ((AsciiCase.same_iff ..).1 hobject).symm
    exact absurd (hinnermost n e' hlt he' hwaits' hname) ((mem_objects_after hfollow).1 hn).2

end Filter

end MarkupFilter
