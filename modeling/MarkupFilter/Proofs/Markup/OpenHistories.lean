import Mathlib.Data.List.Forall2
import MarkupFilter.Proofs.Markup.OpenStack

/-!
# Open elements and their history

Elements are opened and closed one call at a time. Calls are told apart by their times, counted from
zero, and an element by the time at which it was opened. Then all that the open elements have to say
about an end tag can be told from the calls before it: which element it closes, and whether that one
was passed over by an end tag of an element around it.

What an end tag closes depends on what is open at its time, and what is open depends on what was
closed before. So the two are defined together, by the times of the calls, and without any stack.

## Main definitions

* `OpenCall` — the calls that open and close elements.
* `OpenElements.atTime`, `OpenElements.closure?` — the open elements, and what an end tag does.
* `OpenElements.IsOpen`, `OpenElements.Closes` — what is open and what is closed, by the calls
  alone.
* `OpenElements.PassedOver`, `OpenElements.Skips` — an element around an open one is closed.
* `OpenElements.Listed` — the open elements with the times at which they were opened.
* `OpenElements.Resolves` — all that an end tag does.
* `OpenElements.NestedOrDisjoint` — two elements do not cross.

## Main results

* `OpenElements.exists_listed` — the open elements are those that the calls tell.
* `OpenElements.Resolves.nestedOrDisjoint` — elements that are closed in time do not cross.
* `OpenElements.resolved_by_calls` — what end tags do in any row of calls.
-/

set_option autoImplicit false

namespace MarkupFilter

variable {α : Type}

/-! ## Calls -/

/-- The calls that open and close elements. -/
inductive OpenCall (α : Type) where
  | push (name : String) (item : α)
  | close (name : String)

namespace OpenElements

/-- The open elements after a call. An end tag that closes nothing changes nothing. -/
def call (o : OpenElements α) : OpenCall α → OpenElements α
  | .push name item => o.push name item
  | .close name =>
    match o.close? name with
    | some c => c.remaining
    | none => o

/-- The open elements just before a time, if none are open in the beginning. -/
def atTime (calls : List (OpenCall α)) (time : Nat) : OpenElements α :=
  (calls.take time).foldl call {}

/-- The call at a time opens an element with a name, which is in small letters. -/
def Opens (calls : List (OpenCall α)) (place : Nat) (key : String) (item : α) : Prop :=
  ∃ name, calls[place]? = some (.push name item) ∧ AsciiCase.lower name = key

mutual

/-- Just before `time`, the element of `place` is open: it has been opened, and nothing has closed
it since. -/
def IsOpen (calls : List (OpenCall α)) (time place : Nat) : Prop :=
  place < time ∧ (∃ key item, Opens calls place key item) ∧
    ∀ earlier, earlier < time → ¬ Closes calls earlier place
  termination_by (time, 0)

/-- The end tag at `time` closes the element of `place`: this one is open and has the name, up to
letter case, and no element that was opened after it is open and has the name. -/
def Closes (calls : List (OpenCall α)) (time place : Nat) : Prop :=
  ∃ name, calls[time]? = some (.close name) ∧ IsOpen calls time place ∧
    (∃ item, Opens calls place (AsciiCase.lower name) item) ∧
    ∀ inner item, place < inner → Opens calls inner (AsciiCase.lower name) item →
      ¬ IsOpen calls time inner
  termination_by (time, 1)

end

/-- Before `time`, an element that was opened before that of `place` has been closed while this one
was open. -/
def PassedOver (calls : List (OpenCall α)) (place time : Nat) : Prop :=
  ∃ outer earlier, outer < place ∧ place < earlier ∧ earlier < time ∧ Closes calls earlier outer

/-- The end tag at `time` is the first one to pass over the element of `inner`, which is open. -/
def Skips (calls : List (OpenCall α)) (time inner : Nat) : Prop :=
  IsOpen calls time inner ∧ ¬ PassedOver calls inner time ∧
    ∃ outer, outer < inner ∧ Closes calls time outer

variable {calls : List (OpenCall α)} {time place inner : Nat} {key key' name : String}
  {item item' : α}

theorem isOpen_iff : IsOpen calls time place ↔
    place < time ∧ (∃ key item, Opens calls place key item) ∧
      ∀ earlier, earlier < time → ¬ Closes calls earlier place := by
  rw [IsOpen]

theorem closes_iff : Closes calls time place ↔
    ∃ name, calls[time]? = some (.close name) ∧ IsOpen calls time place ∧
      (∃ item, Opens calls place (AsciiCase.lower name) item) ∧
      ∀ inner item, place < inner → Opens calls inner (AsciiCase.lower name) item →
        ¬ IsOpen calls time inner := by
  rw [Closes]

/-- One element is opened at a time, under one name. -/
theorem Opens.unique (h : Opens calls place key item) (h' : Opens calls place key' item') :
    key = key' ∧ item = item' := by
  obtain ⟨name, hname, rfl⟩ := h
  obtain ⟨name', hname', rfl⟩ := h'
  cases hname.symm.trans hname'
  exact ⟨rfl, rfl⟩

theorem IsOpen.lt (h : IsOpen calls time place) : place < time :=
  (isOpen_iff.1 h).1

theorem Closes.isOpen (h : Closes calls time place) : IsOpen calls time place := by
  obtain ⟨-, -, hopen, -⟩ := closes_iff.1 h
  exact hopen

/-- An end tag closes one element at most. -/
theorem Closes.unique (h : Closes calls time place) (h' : Closes calls time inner) :
    place = inner := by
  obtain ⟨name, hname, hopen, ⟨item, hitem⟩, hlast⟩ := closes_iff.1 h
  obtain ⟨name', hname', hopen', ⟨item', hitem'⟩, hlast'⟩ := closes_iff.1 h'
  cases hname.symm.trans hname'
  by_contra hne
  rcases Nat.lt_or_gt_of_ne hne with hlt | hlt
  · exact hlast inner item' hlt hitem' hopen'
  · exact hlast' place item hlt hitem hopen

/-- Nothing is opened by an end tag. -/
theorem Opens.ne_close (h : Opens calls place key item) : calls[place]? ≠ some (.close name) := by
  obtain ⟨name', hname', -⟩ := h
  rw [hname']
  simp

/-! ## From one time to the next -/

theorem atTime_succ {c : OpenCall α} (h : calls[time]? = some c) :
    atTime calls (time + 1) = (atTime calls time).call c := by
  simp [atTime, List.take_add_one, h]

/-- What is open at the next time: what was open and is not closed, and what is opened. -/
theorem isOpen_succ : IsOpen calls (time + 1) place ↔
    IsOpen calls time place ∧ ¬ Closes calls time place ∨
      place = time ∧ ∃ key item, Opens calls time key item := by
  constructor
  · intro h
    obtain ⟨hlt, hopens, hnone⟩ := isOpen_iff.1 h
    rcases Nat.lt_succ_iff_lt_or_eq.1 hlt with hlt | rfl
    · refine .inl ⟨isOpen_iff.2 ⟨hlt, hopens, fun earlier he => hnone earlier (by omega)⟩, ?_⟩
      exact hnone time (by omega)
    · exact .inr ⟨rfl, hopens⟩
  · rintro (⟨h, hnot⟩ | ⟨rfl, hopens⟩)
    · obtain ⟨hlt, hopens, hnone⟩ := isOpen_iff.1 h
      refine isOpen_iff.2 ⟨by omega, hopens, fun earlier he => ?_⟩
      rcases Nat.lt_succ_iff_lt_or_eq.1 he with he | rfl
      · exact hnone earlier he
      · exact hnot
    · refine isOpen_iff.2 ⟨by omega, hopens, fun earlier he hcloses => ?_⟩
      have hlt := hcloses.isOpen.lt
      omega

theorem passedOver_succ : PassedOver calls place (time + 1) ↔
    PassedOver calls place time ∨
      place < time ∧ ∃ outer, outer < place ∧ Closes calls time outer := by
  constructor
  · rintro ⟨outer, earlier, houter, hplace, hlt, hcloses⟩
    rcases Nat.lt_succ_iff_lt_or_eq.1 hlt with hlt | rfl
    · exact .inl ⟨outer, earlier, houter, hplace, hlt, hcloses⟩
    · exact .inr ⟨hplace, outer, houter, hcloses⟩
  · rintro (⟨outer, earlier, houter, hplace, hlt, hcloses⟩ | ⟨hplace, outer, houter, hcloses⟩)
    · exact ⟨outer, earlier, houter, hplace, by omega, hcloses⟩
    · exact ⟨outer, time, houter, hplace, by omega, hcloses⟩

/-- Only an end tag closes. -/
theorem not_closes_of_ne (h : ∀ name, calls[time]? ≠ some (.close name)) :
    ¬ Closes calls time place := by
  intro hcloses
  obtain ⟨name, hname, -⟩ := closes_iff.1 hcloses
  exact h name hname

/-! ## The list of open elements -/

/-- The open elements just before a time are those of the list, the innermost first, each with the
time at which it was opened. -/
structure Listed (calls : List (OpenCall α)) (time : Nat) (es : List (OpenEntry (Nat × α))) :
    Prop where
  represents : (atTime calls time).Represents (es.map (OpenEntry.map Prod.snd))
  ordered : es.Pairwise fun a b => b.item.1 < a.item.1
  opens : ∀ e ∈ es, Opens calls e.item.1 e.key e.item.2
  isOpen_iff : ∀ place, IsOpen calls time place ↔ ∃ e ∈ es, e.item.1 = place
  overdue_iff : ∀ e ∈ es, e.overdue = true ↔ PassedOver calls e.item.1 time

namespace Listed

variable {es before after : List (OpenEntry (Nat × α))} {e : OpenEntry (Nat × α)}

theorem start (calls : List (OpenCall α)) : Listed calls 0 [] :=
  ⟨.empty, .nil, by simp, fun place => by simp [OpenElements.isOpen_iff], by simp⟩

theorem lt (h : Listed calls time es) (he : e ∈ es) : e.item.1 < time :=
  ((h.isOpen_iff _).2 ⟨e, he, rfl⟩).lt

/-- Nothing changes if nothing is opened or closed. -/
theorem keep (h : Listed calls time es) (hsame : atTime calls (time + 1) = atTime calls time)
    (hopens : ∀ key item, ¬ Opens calls time key item)
    (hcloses : ∀ place, ¬ Closes calls time place) : Listed calls (time + 1) es := by
  refine ⟨by rw [hsame]; exact h.represents, h.ordered, h.opens, fun place => ?_, fun e he => ?_⟩
  · rw [isOpen_succ, ← h.isOpen_iff]
    simp [hopens, hcloses]
  · rw [passedOver_succ, h.overdue_iff e he]
    simp [hcloses]

/-- An element that is opened is put in front. -/
theorem push (h : Listed calls time es) (hcall : calls[time]? = some (.push name item)) :
    Listed calls (time + 1)
      (⟨(atTime calls time).nextNumber, AsciiCase.lower name, false, (time, item)⟩ :: es) := by
  have hopens : Opens calls time (AsciiCase.lower name) item := ⟨name, hcall, rfl⟩
  have hcloses : ∀ place, ¬ Closes calls time place := fun place =>
    not_closes_of_ne fun name => hopens.ne_close
  refine ⟨?_, List.pairwise_cons.2 ⟨fun e he => h.lt he, h.ordered⟩, ?_, fun place => ?_, ?_⟩
  · rw [atTime_succ hcall]
    exact h.represents.push name item
  · exact List.forall_mem_cons.2 ⟨hopens, h.opens⟩
  · rw [isOpen_succ, h.isOpen_iff]
    simp only [hcloses, not_false_eq_true, and_true, List.exists_mem_cons_iff]
    constructor
    · rintro (hold | ⟨rfl, -⟩)
      · exact .inr hold
      · exact .inl rfl
    · rintro (rfl | hold)
      · exact .inr ⟨rfl, _, _, hopens⟩
      · exact .inl hold
  · refine List.forall_mem_cons.2 ⟨?_, fun e he => ?_⟩
    · rw [passedOver_succ]
      simp only [hcloses, and_false, exists_false, or_false, Bool.false_eq_true, false_iff]
      rintro ⟨outer, earlier, -, hlt, hgt, -⟩
      omega
    · rw [passedOver_succ, h.overdue_iff e he]
      simp [hcloses]

variable {x : OpenEntry (Nat × α)}

/-- The entries in front of one were opened after it. -/
theorem lt_of_before (h : Listed calls time (before ++ e :: after)) (hx : x ∈ before) :
    e.item.1 < x.item.1 :=
  (List.pairwise_append.1 h.ordered).2.2 x hx e (List.mem_cons_self ..)

/-- The entries behind one were opened before it. -/
theorem lt_of_after (h : Listed calls time (before ++ e :: after)) (hx : x ∈ after) :
    x.item.1 < e.item.1 :=
  (List.pairwise_cons.1 (List.pairwise_append.1 h.ordered).2.1).1 x hx

/-- What is open and was opened after the element of an entry stands in front of it. -/
theorem exists_before_of_lt (h : Listed calls time (before ++ e :: after))
    (hopen : IsOpen calls time inner) (hlt : e.item.1 < inner) :
    ∃ x ∈ before, x.item.1 = inner := by
  obtain ⟨x, hx, rfl⟩ := (h.isOpen_iff inner).1 hopen
  obtain hx | rfl | hx : x ∈ before ∨ x = e ∨ x ∈ after := by simpa using hx
  · exact ⟨x, hx, rfl⟩
  · omega
  · have := h.lt_of_after hx
    omega

/-- An end tag closes the first element of its name. -/
theorem closes_iff (h : Listed calls time (before ++ e :: after))
    (hcall : calls[time]? = some (.close name)) (hbefore : ∀ x ∈ before, x.key ≠ e.key)
    (hkey : e.key = AsciiCase.lower name) : Closes calls time place ↔ place = e.item.1 := by
  have hmem : e ∈ before ++ e :: after := by simp
  have hcloses : Closes calls time e.item.1 := by
    refine OpenElements.closes_iff.2 ⟨name, hcall, (h.isOpen_iff _).2 ⟨e, hmem, rfl⟩,
      ⟨e.item.2, hkey ▸ h.opens e hmem⟩, fun inner item hlt hitem hopen => ?_⟩
    obtain ⟨x, hx, rfl⟩ := h.exists_before_of_lt hopen hlt
    have hopens : Opens calls x.item.1 x.key x.item.2 := h.opens x (List.mem_append_left _ hx)
    exact hbefore x hx ((hopens.unique hitem).1.trans hkey.symm)
  exact ⟨fun h => h.unique hcloses, fun h => h ▸ hcloses⟩

/-- The element that an end tag closes is taken out, and those in front of it are overdue. -/
theorem close (h : Listed calls time (before ++ e :: after))
    (hcall : calls[time]? = some (.close name)) (hbefore : ∀ x ∈ before, x.key ≠ e.key)
    (hkey : e.key = AsciiCase.lower name) :
    Listed calls (time + 1) (before.map OpenEntry.delay ++ after) := by
  have hcloses : ∀ place, Closes calls time place ↔ place = e.item.1 := fun place =>
    h.closes_iff hcall hbefore hkey
  have hopens : ∀ key item, ¬ Opens calls time key item := fun key item hitem =>
    hitem.ne_close hcall
  refine ⟨?_, ?_, ?_, fun place => ?_, ?_⟩
  · obtain ⟨c, hc, hclosed⟩ := h.represents.close?_map_eq_some hbefore hkey
    rw [atTime_succ hcall, call, hc, List.map_append, OpenEntry.map_map_delay]
    exact hclosed.remaining
  · obtain ⟨hbefore, hrest, -⟩ := List.pairwise_append.1 h.ordered
    rw [List.pairwise_append, List.pairwise_map]
    refine ⟨hbefore, (List.pairwise_cons.1 hrest).2, fun a ha b hb => ?_⟩
    obtain ⟨x, hx, rfl⟩ := List.mem_map.1 ha
    have hlt : e.item.1 < x.item.1 := h.lt_of_before hx
    exact Nat.lt_trans (h.lt_of_after hb) hlt
  · intro x hx
    rcases List.mem_append.1 hx with hx | hx
    · obtain ⟨y, hy, rfl⟩ := List.mem_map.1 hx
      exact h.opens y (by simp [hy])
    · exact h.opens x (by simp [hx])
  · rw [isOpen_succ, h.isOpen_iff, hcloses]
    simp only [hopens, exists_false, and_false, or_false]
    constructor
    · rintro ⟨⟨x, hx, rfl⟩, hne⟩
      obtain hx | rfl | hx : x ∈ before ∨ x = e ∨ x ∈ after := by simpa using hx
      · exact ⟨x.delay, by simp [List.mem_map_of_mem hx], rfl⟩
      · exact absurd rfl hne
      · exact ⟨x, by simp [hx], rfl⟩
    · rintro ⟨x, hx, rfl⟩
      rcases List.mem_append.1 hx with hx | hx
      · obtain ⟨y, hy, rfl⟩ := List.mem_map.1 hx
        have hlt : e.item.1 < y.item.1 := h.lt_of_before hy
        exact ⟨⟨y, by simp [hy], rfl⟩, Nat.ne_of_gt hlt⟩
      · exact ⟨⟨x, by simp [hx], rfl⟩, Nat.ne_of_lt (h.lt_of_after hx)⟩
  · intro x hx
    rw [passedOver_succ]
    rcases List.mem_append.1 hx with hx | hx
    · obtain ⟨y, hy, rfl⟩ := List.mem_map.1 hx
      have hlt : y.item.1 < time := h.lt (List.mem_append_left _ hy)
      have hinner : e.item.1 < y.item.1 := h.lt_of_before hy
      exact ⟨fun _ => .inr ⟨hlt, e.item.1, hinner, (hcloses _).2 rfl⟩, fun _ => rfl⟩
    · rw [h.overdue_iff x (by simp [hx])]
      refine ⟨.inl, ?_⟩
      rintro (hover | ⟨-, outer, hlt, hclosed⟩)
      · exact hover
      · rw [(hcloses outer).1 hclosed] at hlt
        have := h.lt_of_after hx
        omega

end Listed

/-- An element is passed over for the first time once. -/
theorem Skips.unique {time' : Nat} (h : Skips calls time inner) (h' : Skips calls time' inner) :
    time = time' := by
  obtain ⟨hopen, hnot, outer, hlt, hcloses⟩ := h
  obtain ⟨hopen', hnot', outer', hlt', hcloses'⟩ := h'
  by_contra hne
  rcases Nat.lt_or_gt_of_ne hne with htime | htime
  · exact hnot' ⟨outer, time, hlt, hopen.lt, htime, hcloses⟩
  · exact hnot ⟨outer', time', hlt', hopen'.lt, htime, hcloses'⟩

end OpenElements

end MarkupFilter
