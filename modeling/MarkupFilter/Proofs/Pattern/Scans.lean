import Mathlib.Algebra.Group.Nat.Defs
import MarkupFilter.Pattern.Search

/-!
# Scans

A search runs a machine over the places of a text, and at each of them the machine may be entered in
some copies. What happens in a part of the machine does not depend on the others except for where it
is entered, so each part can be looked at as if it were run by itself.

## Main definitions

* `Machine.HasParts` — a machine is made of parts, each of which makes its own step.
* `Scan` — the places of a text and what is between them.
* `Scan.marks` — the marks in a machine at each place.
* `Scan.parts` — the marks in parts, each of which is run by itself.

## Main results

* `Machine.hasParts_choice`, `Machine.hasParts_row` — alternatives and rows have parts.
* `Scan.marks_hasParts` — the marks in a machine with parts are those in its parts.
-/

set_option autoImplicit false

namespace MarkupFilter.Pattern

/-! ## Marks in parts -/

namespace Marks

theorem eq_none_of_isNone : ∀ {k : Marks}, k.isNone = true → k = .none
  | .none, _ => rfl

/-- The marks of the parts are the same, and nothing is left out but parts without marks. -/
def Alike (ks ls : List Marks) : Prop :=
  ∀ i : Nat, ks.getD i .none = ls.getD i .none

theorem Alike.headD {ks ls : List Marks} (h : Alike ks ls) : ks.headD .none = ls.headD .none := by
  have hzero := h 0
  cases ks <;> cases ls <;> exact hzero

theorem Alike.tail {ks ls : List Marks} (h : Alike ks ls) : Alike ks.tail ls.tail := by
  intro i
  have hsucc := h (i + 1)
  cases ks <;> cases ls <;> exact hsucc

theorem alike_append (ks : List Marks) {ls : List Marks} (hls : ∀ k ∈ ls, k = .none) : Alike ks (ks ++ ls) := by
  intro i
  rw [List.getD_eq_getElem?_getD, List.getD_eq_getElem?_getD, List.getElem?_append]
  split
  · rfl
  · next hge =>
    rw [List.getElem?_eq_none (Nat.le_of_not_lt hge)]
    cases hi : ls[i - ks.length]? with
    | none => rfl
    | some k =>
      rw [hls k (List.mem_of_getElem? hi)]
      rfl

theorem alike_items_ofReversed (ended : Nat) (items : List Marks) :
    Alike (ofReversed ended items).items items.reverse := by
  have hitems : (ofReversed ended items).items = (items.dropWhile isNone).reverse := by
    unfold ofReversed
    split
    · next hnil => rw [hnil]; rfl
    · rfl
  have hsplit : items.reverse =
      (items.dropWhile isNone).reverse ++ (items.takeWhile isNone).reverse := by
    rw [← List.reverse_append, List.takeWhile_append_dropWhile]
  rw [hitems, hsplit]
  refine alike_append _ fun k hk => eq_none_of_isNone ?_
  exact List.all_eq_true.1 List.all_takeWhile k (List.mem_reverse.1 hk)

theorem ended_ofReversed_le (ended : Nat) (items : List Marks) :
    (ofReversed ended items).ended ≤ ended := by
  unfold ofReversed
  split
  · exact Nat.zero_le _
  · exact Nat.le_refl _

/-- Nothing is lost unless all parts are without marks. -/
theorem ended_ofReversed {ended : Nat} {items : List Marks}
    (h : (∀ k ∈ items, k = .none) → ended = 0) : (ofReversed ended items).ended = ended := by
  unfold ofReversed
  split
  · next hnil =>
    refine (h fun k hk => eq_none_of_isNone ?_).symm
    have htake : items.takeWhile isNone = items := by
      rw [← List.append_nil (items.takeWhile isNone), ← hnil, List.takeWhile_append_dropWhile]
    exact List.all_eq_true.1 List.all_takeWhile k (htake.symm ▸ hk)
  · rfl

theorem ofReversed_append {items done : List Marks} (hitems : ∀ k ∈ items, k = .none) (ended : Nat) :
    ofReversed ended (items ++ done) = ofReversed ended done := by
  unfold ofReversed
  rw [List.dropWhile_append_of_pos fun k hk => by rw [hitems k hk]; rfl]

end Marks

namespace Machine

/-! ## Steps of parts -/

/-- The copies in which what follows the machine in a row can go on at a place: those in which the
machine has ended, and those in which it could be entered if it matches nothing there. -/
def pass (m : Machine) (p : Place) (enter : Nat) (k : Marks) : Nat :=
  if m.nullable.contains p then enter ||| k.ended else k.ended

/-- The copies in which alternatives have ended. -/
def join (_ : Machine) (ended : Nat) (k : Marks) : Nat :=
  ended ||| k.ended

/-- Alternatives are entered in the same copies. -/
def same (_ : Machine) (enter : Nat) (_ : Marks) : Nat :=
  enter

/-- The marks in the parts after a step, where `onward` says in which copies the next part is
entered. -/
def moveAll (step : Machine → Nat → Marks → Marks) (onward : Machine → Nat → Marks → Nat) :
    Nat → List Marks → List Machine → List Marks
  | _, _, [] => []
  | enter, ks, m :: ms =>
    step m enter (ks.headD .none) ::
      moveAll step onward (onward m enter (ks.headD .none)) ks.tail ms

/-- The copies that come through all parts. -/
def gather (onward : Machine → Nat → Marks → Nat) : Nat → List Marks → List Machine → Nat
  | ended, _, [] => ended
  | ended, ks, m :: ms => gather onward (onward m ended (ks.headD .none)) ks.tail ms

/-- Without marks the machine stays so unless it is entered. -/
def Rests (m : Machine) : Prop :=
  ∀ before after n, m.shift before after n 0 .none = .none

section

variable {step : Machine → Nat → Marks → Marks} {onward : Machine → Nat → Marks → Nat}

theorem moveAll_congr {ks ls : List Marks} (h : Marks.Alike ks ls) (enter : Nat)
    (ms : List Machine) : moveAll step onward enter ks ms = moveAll step onward enter ls ms := by
  induction ms generalizing ks ls enter with
  | nil => rfl
  | cons m ms ih =>
    rw [moveAll, moveAll, h.headD, ih h.tail]

theorem eq_none_of_mem_moveAll {ms : List Machine} (hstep : ∀ m ∈ ms, step m 0 .none = .none)
    (honward : ∀ m, onward m 0 .none = 0) : ∀ k ∈ moveAll step onward 0 [] ms, k = .none := by
  induction ms with
  | nil => exact fun _ hmem => nomatch hmem
  | cons m ms ih =>
    intro k hk
    rcases List.mem_cons.1 hk with rfl | hmem
    · exact hstep m (List.mem_cons_self ..)
    · exact ih (fun m hm => hstep m (List.mem_cons_of_mem _ hm)) k ((honward m).symm ▸ hmem)

/-- Parts that rest stay without marks unless the first of them is entered. -/
theorem ofReversed_moveAll {ms : List Machine} (hstep : ∀ m ∈ ms, step m 0 .none = .none)
    (honward : ∀ m, onward m 0 .none = 0) (ended : Nat) :
    Marks.ofReversed ended (moveAll step onward 0 [] ms).reverse = .none := by
  have hmoved := eq_none_of_mem_moveAll hstep honward
  rw [← List.append_nil (List.reverse _), Marks.ofReversed_append fun k hk =>
    hmoved k (List.mem_reverse.1 hk)]
  rfl

theorem exists_of_mem_moveAll {enter : Nat} {ks : List Marks} {ms : List Machine} {k : Marks}
    (hk : k ∈ moveAll step onward enter ks ms) : ∃ m ∈ ms, ∃ enter' k', k = step m enter' k' := by
  induction ms generalizing enter ks with
  | nil => cases hk
  | cons m ms ih =>
    rcases List.mem_cons.1 hk with rfl | hmem
    · exact ⟨m, List.mem_cons_self .., _, _, rfl⟩
    · obtain ⟨m', hm', hstep⟩ := ih hmem
      exact ⟨m', List.mem_cons_of_mem _ hm', hstep⟩

theorem gather_eq_zero (honward : ∀ m, onward m 0 .none = 0) {ks : List Marks}
    (hks : ∀ k ∈ ks, k = .none) (ms : List Machine) : gather onward 0 ks ms = 0 := by
  induction ms generalizing ks with
  | nil => rfl
  | cons m ms ih =>
    have hhead : ks.headD .none = .none := by
      cases ks with
      | nil => rfl
      | cons k ks => exact hks k (List.mem_cons_self ..)
    rw [gather, hhead, honward]
    exact ih fun k hk => hks k (List.mem_of_mem_tail hk)

theorem gather_lt {w : Nat}
    (honward : ∀ m e k, e < 2 ^ w → k.ended < 2 ^ w → onward m e k < 2 ^ w) {ended : Nat}
    (hended : ended < 2 ^ w) {ks : List Marks} (hks : ∀ k ∈ ks, k.ended < 2 ^ w)
    (ms : List Machine) : gather onward ended ks ms < 2 ^ w := by
  induction ms generalizing ended ks with
  | nil => exact hended
  | cons m ms ih =>
    refine ih (honward _ _ _ hended ?_) fun k hk => hks k (List.mem_of_mem_tail hk)
    cases ks with
    | nil => exact Nat.two_pow_pos w
    | cons k ks => exact hks k (List.mem_cons_self ..)

end

theorem pass_zero (p : Place) (m : Machine) : m.pass p 0 .none = 0 := by
  unfold pass
  split <;> rfl

theorem pass_lt {w : Nat} (p : Place) (m : Machine) (e : Nat) (k : Marks) (he : e < 2 ^ w)
    (hk : k.ended < 2 ^ w) : m.pass p e k < 2 ^ w := by
  unfold pass
  split
  · exact Nat.or_lt_two_pow he hk
  · exact hk

theorem testBit_pass_of_enter {p : Place} {m : Machine} (hm : m.nullable.contains p = true)
    {e b : Nat} (hb : e.testBit b = true) (k : Marks) : (m.pass p e k).testBit b = true := by
  rw [pass, if_pos hm, Nat.testBit_or, hb, Bool.true_or]

theorem testBit_pass_of_ended (p : Place) (m : Machine) (e : Nat) {k : Marks} {b : Nat}
    (hb : k.ended.testBit b = true) : (m.pass p e k).testBit b = true := by
  unfold pass
  split
  · rw [Nat.testBit_or, hb, Bool.or_true]
  · exact hb

/-- A machine with parts: each part makes its own step, and the copies that come through all of them
are those in which the machine has ended. -/
structure HasParts (m : Machine) (ms : List Machine) (onward : Place → Machine → Nat → Marks → Nat)
    (arrive : Place → Machine → Nat → Marks → Nat) : Prop where
  shift : ∀ before after n enter k,
    m.shift before after n enter k =
      let moved := moveAll (fun m e k => m.shift before after n e k) (onward before) enter k.items ms
      .ofReversed (gather (arrive after) 0 moved ms) moved.reverse
  onward_zero : ∀ p m, onward p m 0 .none = 0
  arrive_zero : ∀ p m, arrive p m 0 .none = 0

/-- The step of alternatives after others. -/
theorem shiftAny_eq (before after : Place) (n enter ended : Nat) (done ks : List Marks)
    (ms : List Machine) :
    shiftAny before after n enter ended done ks ms =
      let moved := moveAll (fun m e k => m.shift before after n e k) same enter ks ms
      .ofReversed (gather join ended moved ms) (moved.reverse ++ done) := by
  induction ms generalizing ended done ks with
  | nil => rfl
  | cons m ms ih =>
    rw [shiftAny, ih]
    simp only [moveAll, gather, List.reverse_cons, List.append_assoc, List.cons_append,
      List.nil_append, List.headD_cons, List.tail_cons]
    rfl

/-- The step of a row after other parts. When the rest is left out, nothing would happen in it. -/
theorem shiftAll_eq (before after : Place) (n enter ended : Nat) (done ks : List Marks)
    {ms : List Machine} (hms : ∀ m ∈ ms, m.Rests) :
    shiftAll before after n enter ended done ks ms =
      let moved := moveAll (fun m e k => m.shift before after n e k) (fun m => m.pass before) enter
        ks ms
      .ofReversed (gather (fun m => m.pass after) ended moved ms) (moved.reverse ++ done) := by
  induction ms generalizing enter ended done ks with
  | nil => rfl
  | cons m ms ih =>
    rw [shiftAll]
    split
    · next hstop =>
      simp only [Bool.and_eq_true, decide_eq_true_eq, List.isEmpty_iff] at hstop
      obtain ⟨⟨rfl, rfl⟩, rfl⟩ := hstop
      have hmoved : ∀ k ∈ moveAll (fun m e k => m.shift before after n e k)
          (fun m => m.pass before) 0 [] (m :: ms), k = .none :=
        eq_none_of_mem_moveAll (fun m hm => hms m hm before after n) (pass_zero before)
      dsimp only
      rw [gather_eq_zero (pass_zero after) hmoved, Marks.ofReversed_append fun k hk =>
        hmoved k (List.mem_reverse.1 hk)]
    · rw [ih _ _ _ _ fun m hm => hms m (List.mem_cons_of_mem _ hm)]
      simp only [moveAll, gather, List.reverse_cons, List.append_assoc, List.cons_append,
        List.nil_append, List.headD_cons, List.tail_cons]
      rfl

/-- **Alternatives are entered together**, and they have ended where one of them has. -/
theorem hasParts_choice (places : PlaceSet) {ms : List Machine} (hms : ∀ m ∈ ms, m.Rests) :
    HasParts (.choice places ms) ms (fun _ => same) (fun _ => join) where
  shift before after n enter k := by
    rw [shift]
    split
    · next hstop =>
      simp only [Bool.and_eq_true, decide_eq_true_eq] at hstop
      obtain ⟨rfl, hnone⟩ := hstop
      obtain rfl := Marks.eq_none_of_isNone hnone
      exact (ofReversed_moveAll (fun m hm => hms m hm before after n) (fun _ => rfl) _).symm
    · rw [shiftAny_eq]
      dsimp only
      rw [List.append_nil]
  onward_zero _ _ := rfl
  arrive_zero _ _ := rfl

/-- **The parts of a row are entered one after the other**, and it has ended where the last of them
has. -/
theorem hasParts_row (places : PlaceSet) {ms : List Machine} (hms : ∀ m ∈ ms, m.Rests) :
    HasParts (.row places ms) ms (fun p m => m.pass p) (fun p m => m.pass p) where
  shift before after n enter k := by
    rw [shift]
    split
    · next hstop =>
      simp only [Bool.and_eq_true, decide_eq_true_eq] at hstop
      obtain ⟨rfl, hnone⟩ := hstop
      obtain rfl := Marks.eq_none_of_isNone hnone
      exact (ofReversed_moveAll (fun m hm => hms m hm before after n) (pass_zero before) _).symm
    · rw [shiftAll_eq before after n enter 0 [] k.items hms]
      dsimp only
      rw [List.append_nil]
  onward_zero := pass_zero
  arrive_zero := pass_zero

section

variable {m : Machine} {ms : List Machine}
  {onward arrive : Place → Machine → Nat → Marks → Nat}

theorem HasParts.rests (h : HasParts m ms onward arrive) (hms : ∀ m ∈ ms, m.Rests) : m.Rests := by
  intro before after n
  rw [h.shift]
  exact ofReversed_moveAll (fun m hm => hms m hm before after n) (h.onward_zero before) _

theorem HasParts.ended_lt {w : Nat} (h : HasParts m ms onward arrive)
    (harrive : ∀ p m e k, e < 2 ^ w → k.ended < 2 ^ w → arrive p m e k < 2 ^ w)
    (hms : ∀ m ∈ ms, ∀ before after n enter k, (m.shift before after n enter k).ended < 2 ^ w)
    (before after : Place) (n enter : Nat) (k : Marks) :
    (m.shift before after n enter k).ended < 2 ^ w := by
  rw [h.shift]
  refine Nat.lt_of_le_of_lt (Marks.ended_ofReversed_le _ _) ?_
  refine gather_lt (harrive after) (Nat.two_pow_pos w) (fun k hk => ?_) ms
  obtain ⟨m', hm', enter', k', rfl⟩ := exists_of_mem_moveAll hk
  exact hms m' hm' _ _ _ _ _

end

end Machine

/-! ## Scans -/

/-- The places of a text, and the code point after each of them. -/
structure Scan where
  place : Nat → Place
  code : Nat → Nat

namespace Scan

/-- The marks in a machine at each place, where it may be entered in the copies `enter i` at place
`i`. -/
def marks (s : Scan) (m : Machine) (enter : Nat → Nat) : Nat → Marks
  | 0 => .none
  | i + 1 => m.shift (s.place i) (s.place (i + 1)) (s.code i) (enter i) (marks s m enter i)

/-- The marks in parts at each place. -/
def parts (s : Scan) (onward : Place → Machine → Nat → Marks → Nat) :
    (Nat → Nat) → List Machine → Nat → List Marks
  | _, [], _ => []
  | enter, m :: ms, i =>
    s.marks m enter i ::
      parts s onward (fun i => onward (s.place i) m (enter i) (s.marks m enter i)) ms i

variable {s : Scan} {onward arrive : Place → Machine → Nat → Marks → Nat}

theorem parts_zero (enter : Nat → Nat) (ms : List Machine) :
    ∀ k ∈ s.parts onward enter ms 0, k = .none := by
  induction ms generalizing enter with
  | nil => exact fun _ hmem => nomatch hmem
  | cons m ms ih =>
    intro k hk
    rcases List.mem_cons.1 hk with rfl | hmem
    · rfl
    · exact ih _ k hmem

theorem parts_succ (enter : Nat → Nat) (ms : List Machine) (i : Nat) :
    s.parts onward enter ms (i + 1) =
      Machine.moveAll (fun m e k => m.shift (s.place i) (s.place (i + 1)) (s.code i) e k)
        (onward (s.place i)) (enter i) (s.parts onward enter ms i) ms := by
  induction ms generalizing enter with
  | nil => rfl
  | cons m ms ih =>
    rw [parts, parts, ih]
    rfl

/-- The marks in a machine with parts are those in its parts, each of which is run by itself. -/
theorem marks_hasParts {m : Machine} {ms : List Machine} (h : m.HasParts ms onward arrive)
    (enter : Nat → Nat) (i : Nat) :
    Marks.Alike (s.marks m enter i).items (s.parts onward enter ms i) ∧
      (s.marks m enter i).ended =
        Machine.gather (arrive (s.place i)) 0 (s.parts onward enter ms i) ms := by
  induction i with
  | zero =>
    refine ⟨Marks.alike_append [] (parts_zero enter ms), ?_⟩
    rw [Machine.gather_eq_zero (h.arrive_zero _) (parts_zero enter ms)]
    rfl
  | succ i ih =>
    rw [marks, h.shift, Machine.moveAll_congr ih.1, ← parts_succ]
    refine ⟨?_, Marks.ended_ofReversed fun hnone => ?_⟩
    · have halike := Marks.alike_items_ofReversed
        (Machine.gather (arrive (s.place (i + 1))) 0 (s.parts onward enter ms (i + 1)) ms)
        (s.parts onward enter ms (i + 1)).reverse
      rwa [List.reverse_reverse] at halike
    · exact Machine.gather_eq_zero (h.arrive_zero _)
        (fun k hk => hnone k (List.mem_reverse.2 hk)) ms

end Scan

end MarkupFilter.Pattern
