import MarkupFilter.Proofs.Pattern.Finding

/-!
# Counted repetitions

The body of a counted repetition has a copy for each time that it is matched: where copy `n` has
ended, copy `n + 1` may be entered. If the body matches nothing at a place, further copies are entered
there at once, and at the end of the repetition, fewer of them need to have ended. Both are done for
many copies together by laying blocks of bits over each other, in steps that double.

## Main results

* `Bits.testBit_smearUp`, `Bits.testBit_foldDown` — blocks that are laid over each other.
* `Finds.count`, `Finds.repeating` — what repetitions find.
-/

set_option autoImplicit false

namespace MarkupFilter.Pattern

/-! ## Blocks of bits -/

namespace Bits

theorem smearUp_lt (shift size fuel : Nat) {bits : Nat} (hbits : bits < 2 ^ size) :
    smearUp shift (ones size) fuel bits < 2 ^ size := by
  induction fuel generalizing shift bits with
  | zero => exact hbits
  | succ fuel ih => exact ih _ (Nat.lt_of_le_of_lt Nat.and_le_right (ones_lt size))

/-- A number of blocks is a number of double blocks, or one block more. -/
theorem blocks_cases (r shift : Nat) :
    r * shift = r / 2 * (2 * shift) ∨ r * shift = shift + r / 2 * (2 * shift) := by
  have hr : r = 2 * (r / 2) ∨ r = 2 * (r / 2) + 1 := by omega
  have hdouble : 2 * (r / 2) * shift = r / 2 * (2 * shift) := by
    rw [Nat.mul_comm 2 (r / 2), Nat.mul_assoc]
  rcases hr with heven | hodd
  · exact .inl ((congrArg (· * shift) heven).trans hdouble)
  · refine .inr ?_
    calc r * shift = (2 * (r / 2) + 1) * shift := by rw [← hodd]
      _ = shift + r / 2 * (2 * shift) := by rw [Nat.succ_mul, hdouble, Nat.add_comm]

/-- A bit is repeated in the higher blocks: in those that are fewer than `2 ^ fuel` blocks away. -/
theorem testBit_smearUp {shift size fuel bits x r : Nat} (hx : bits.testBit x = true)
    (hr : r < 2 ^ fuel) (hsize : x + r * shift < size) :
    (smearUp shift (ones size) fuel bits).testBit (x + r * shift) = true := by
  induction fuel generalizing shift bits x r with
  | zero =>
    obtain rfl : r = 0 := Nat.lt_one_iff.1 hr
    rw [Nat.zero_mul, Nat.add_zero]
    exact hx
  | succ fuel ih =>
    have hhalf : r / 2 < 2 ^ fuel := by
      rw [Nat.pow_succ] at hr
      omega
    rw [smearUp]
    rcases blocks_cases r shift with heven | hodd
    · rw [heven] at hsize ⊢
      refine ih ?_ hhalf hsize
      have hlt : x < size := Nat.lt_of_le_of_lt (Nat.le_add_right ..) hsize
      rw [Nat.testBit_and, Nat.testBit_or, hx, testBit_ones, decide_eq_true hlt]
      rfl
    · rw [hodd, ← Nat.add_assoc] at hsize ⊢
      refine ih ?_ hhalf hsize
      have hlt : x + shift < size := Nat.lt_of_le_of_lt (Nat.le_add_right ..) hsize
      rw [Nat.testBit_and, Nat.testBit_or, Nat.testBit_shiftLeft, Nat.add_sub_cancel, hx,
        testBit_ones, decide_eq_true hlt, decide_eq_true (Nat.le_add_left ..), Bool.and_true,
        Bool.and_true, Bool.or_true]

/-- A bit of a higher block is laid over the lowest one, if it is fewer than `2 ^ fuel` blocks
away. -/
theorem testBit_foldDown {shift fuel bits x r : Nat} (hx : bits.testBit (x + r * shift) = true)
    (hr : r < 2 ^ fuel) : (foldDown shift fuel bits).testBit x = true := by
  induction fuel generalizing shift bits r with
  | zero =>
    obtain rfl : r = 0 := Nat.lt_one_iff.1 hr
    rwa [Nat.zero_mul, Nat.add_zero] at hx
  | succ fuel ih =>
    have hhalf : r / 2 < 2 ^ fuel := by
      rw [Nat.pow_succ] at hr
      omega
    rw [foldDown]
    refine ih ?_ hhalf
    rw [Nat.testBit_or, Nat.testBit_shiftRight]
    rcases blocks_cases r shift with heven | hodd
    · rw [← heven, hx, Bool.true_or]
    · rw [show shift + (x + r / 2 * (2 * shift)) = x + r * shift by omega, hx, Bool.or_true]

end Bits

namespace Machine

/-! ## Copies of a body -/

section

variable {width min copies : Nat} {passes : Bool}

theorem enterCounted_lt (width copies : Nat) (passes : Bool) (enter ended : Nat) :
    enterCounted width copies passes enter ended < 2 ^ (width * copies) := by
  unfold enterCounted
  split
  · exact Nat.two_pow_pos _
  · have hlt : ((enter ||| ended <<< width) &&& Bits.ones (width * copies)) <
        2 ^ (width * copies) := Nat.lt_of_le_of_lt Nat.and_le_right (Bits.ones_lt _)
    dsimp only
    split
    · exact Bits.smearUp_lt width _ _ hlt
    · exact hlt

theorem block_lt {width copies b r : Nat} (hb : b < width) (hr : r < copies) :
    b + r * width < width * copies := by
  calc b + r * width < width + r * width := Nat.add_lt_add_right hb _
    _ = (r + 1) * width := by rw [Nat.succ_mul, Nat.add_comm]
    _ ≤ copies * width := Nat.mul_le_mul_right width hr
    _ = width * copies := Nat.mul_comm ..

theorem lt_two_pow_log2 {r copies : Nat} (hr : r < copies) : r < 2 ^ (Nat.log2 copies + 1) :=
  Nat.lt_trans hr Nat.lt_log2_self

/-- A copy is entered when the repetition is, or when the one before has ended, and further copies
with it if the body can be passed over. -/
theorem testBit_enterCounted {enter ended x r : Nat}
    (hx : (enter ||| ended <<< width).testBit x = true) (hr : r = 0 ∨ passes = true)
    (hcopies : r < copies) (hsize : x + r * width < width * copies) :
    (enterCounted width copies passes enter ended).testBit (x + r * width) = true := by
  have hsome : (decide (enter = 0) && decide (ended = 0)) ≠ true := by
    intro hzero
    simp only [Bool.and_eq_true, decide_eq_true_eq] at hzero
    rw [hzero.1, hzero.2, Nat.zero_shiftLeft, Nat.or_zero, Nat.zero_testBit] at hx
    cases hx
  have hlimited : ((enter ||| ended <<< width) &&& Bits.ones (width * copies)).testBit x =
      true := by
    have hlt : x < width * copies := Nat.lt_of_le_of_lt (Nat.le_add_right ..) hsize
    rw [Nat.testBit_and, hx, Bits.testBit_ones, decide_eq_true hlt]
    rfl
  rw [enterCounted, if_neg hsome]
  dsimp only
  split
  · exact Bits.testBit_smearUp hlimited (lt_two_pow_log2 hcopies) hsize
  · next hpasses =>
    obtain rfl := hr.resolve_right hpasses
    rwa [Nat.zero_mul, Nat.add_zero]

theorem endedCounted_zero : endedCounted width min copies passes 0 = 0 := by
  unfold endedCounted
  simp

theorem endedCounted_lt (ended : Nat) :
    endedCounted width min copies passes ended < 2 ^ width := by
  unfold endedCounted
  extract_lets counted
  split
  · exact Nat.two_pow_pos _
  · split
    · next hone =>
      rw [hone]
      decide
    · exact Nat.lt_of_le_of_lt Nat.and_le_right (Bits.ones_lt _)

/-- The repetition has ended when copies of its body have, at least `min` of them unless the body can
be passed over. -/
theorem testBit_endedCounted {ended b r : Nat} (hb : b < width)
    (hended : ended.testBit (b + r * width) = true) (hmin : min ≤ r + 1 ∨ passes = true)
    (hcopies : r < copies) : (endedCounted width min copies passes ended).testBit b = true := by
  have hcounted : ∃ q, q < copies ∧
      (if passes then ended else ended >>> (width * (min - 1))).testBit (b + q * width) = true := by
    split
    · exact ⟨r, hcopies, hended⟩
    · next hpasses =>
      have hle : min - 1 ≤ r := by
        have := hmin.resolve_right hpasses
        omega
      refine ⟨r - (min - 1), Nat.lt_of_le_of_lt (Nat.sub_le ..) hcopies, ?_⟩
      have hplace : width * (min - 1) + (b + (r - (min - 1)) * width) = b + r * width := by
        rw [Nat.sub_mul, Nat.mul_comm width]
        have := Nat.mul_le_mul_right width hle
        omega
      rw [Nat.testBit_shiftRight, hplace]
      exact hended
  obtain ⟨q, hq, hbit⟩ := hcounted
  unfold endedCounted
  extract_lets counted
  have hbit : counted.testBit (b + q * width) = true := hbit
  split
  · next hzero =>
    rw [hzero, Nat.zero_testBit] at hbit
    cases hbit
  · split
    · next hone =>
      obtain rfl : b = 0 := Nat.lt_one_iff.1 (hone ▸ hb)
      rfl
    · rw [Nat.testBit_and, Bits.testBit_foldDown hbit (lt_two_pow_log2 hq), Bits.testBit_ones]
      exact decide_eq_true hb

end

/-- The step of a counted repetition, which is that of its body where this one is entered. -/
theorem shift_count (places : PlaceSet) (width min copies : Nat) {body : Machine}
    (hbody : body.Rests) (before after : Place) (n enter : Nat) (k : Marks) :
    let inside := body.shift before after n (enterCounted width copies
      (body.nullable.contains before) enter (k.items.headD .none).ended) (k.items.headD .none)
    let counted := (Machine.count places width min copies body).shift before after n enter k
    counted.items.headD .none = inside ∧ counted.ended =
      endedCounted width min copies (body.nullable.contains after) inside.ended := by
  dsimp only
  rw [shift]
  split
  · next hstop =>
    simp only [Bool.and_eq_true, decide_eq_true_eq] at hstop
    obtain ⟨rfl, hnone⟩ := hstop
    obtain rfl := Marks.eq_none_of_isNone hnone
    have hrests : body.shift before after n (enterCounted width copies
        (body.nullable.contains before) 0 Marks.none.ended) .none = .none := hbody ..
    refine ⟨hrests.symm, ?_⟩
    show 0 = endedCounted width min copies _ (body.shift before after n (enterCounted width copies
        (body.nullable.contains before) 0 Marks.none.ended) .none).ended
    rw [hrests]
    exact endedCounted_zero.symm
  · dsimp only
    split
    · next hnone =>
      rw [hnone]
      exact ⟨rfl, endedCounted_zero.symm⟩
    · exact ⟨rfl, rfl⟩

end Machine

namespace Finds

variable {s : Scan} {width : Nat} {body : Machine} {spans : Nat → Nat → Prop}

/-! ## Runs of a counted repetition -/

section

variable (places : PlaceSet) (min : Nat) {copies : Nat} {enter : Nat → Nat}

/-- The marks in the body. -/
def inside (s : Scan) (m : Machine) (enter : Nat → Nat) (i : Nat) : Marks :=
  (s.marks m enter i).items.headD .none

/-- The copies of the body that are entered. -/
def enterInside (s : Scan) (places : PlaceSet) (width min copies : Nat) (body : Machine)
    (enter : Nat → Nat) (i : Nat) : Nat :=
  Machine.enterCounted width copies (body.nullable.contains (s.place i)) (enter i)
    (inside s (.count places width min copies body) enter i).ended

/-- The body is run by itself, and the repetition has ended as the body says. -/
theorem marks_count (hbody : body.Rests) (i : Nat) :
    inside s (.count places width min copies body) enter i =
        s.marks body (enterInside s places width min copies body enter) i ∧
      (s.marks (.count places width min copies body) enter i).ended =
        Machine.endedCounted width min copies (body.nullable.contains (s.place i))
          (inside s (.count places width min copies body) enter i).ended := by
  induction i with
  | zero => exact ⟨rfl, Machine.endedCounted_zero.symm⟩
  | succ i ih =>
    obtain ⟨hinside, hended⟩ := Machine.shift_count places width min copies hbody (s.place i)
      (s.place (i + 1)) (s.code i) (enter i)
      (s.marks (.count places width min copies body) enter i)
    refine ⟨?_, ?_⟩
    · rw [inside, Scan.marks, hinside, Scan.marks, ← ih.1]
      rfl
    · rw [inside, Scan.marks, hended, hinside]

/-- After `n` spans copy `n` is entered. The induction is on `n`: an empty span does not let any copy
end, but where there is one, copies are passed over. -/
theorem testBit_entered (h : Finds s (width * copies) body spans) {i j n b : Nat}
    (hspans : Repeated spans n i j) (hn : n < copies) (hbw : b < width)
    (hb : (enter i).testBit b = true) :
    ∃ x r, x + r * width = b + n * width ∧ r ≤ n ∧
      (r = 0 ∨ body.nullable.contains (s.place j) = true) ∧
      (enter j ||| (inside s (.count places width min copies body) enter j).ended <<< width).testBit
        x = true := by
  induction n generalizing j with
  | zero =>
    obtain rfl : i = j := hspans
    refine ⟨b, 0, rfl, Nat.le_refl 0, .inl rfl, ?_⟩
    rw [Nat.testBit_or, hb, Bool.true_or]
  | succ n ih =>
    obtain ⟨k, hspans, hspan⟩ := hspans
    obtain ⟨x, r, hx, hrn, hr, hentered⟩ := ih hspans (Nat.lt_of_succ_lt hn)
    rcases Nat.eq_or_lt_of_le (h.le k j hspan) with rfl | hkj
    · refine ⟨x, r + 1, ?_, Nat.succ_le_succ hrn, .inr (h.nullable k hspan), hentered⟩
      rw [Nat.succ_mul, Nat.succ_mul]
      omega
    · have hlt : b + n * width < width * copies := Machine.block_lt hbw (Nat.lt_of_succ_lt hn)
      have hcopy : (enterInside s places width min copies body enter k).testBit (b + n * width) =
          true := by
        rw [← hx] at hlt ⊢
        exact Machine.testBit_enterCounted hentered hr (by omega) hlt
      have hended := h.ended (enterInside s places width min copies body enter)
        (fun i => Machine.enterCounted_lt ..) k j _ hkj hspan hcopy
      rw [← (marks_count places min h.rests j).1] at hended
      refine ⟨b + n * width + width, 0, ?_, Nat.zero_le _, .inl rfl, ?_⟩
      · rw [Nat.succ_mul]
        omega
      · rw [Nat.testBit_or, Nat.testBit_shiftLeft, Nat.add_sub_cancel, hended,
          decide_eq_true (Nat.le_add_left ..), Bool.and_true, Bool.or_true]

/-- After `n` spans copy `n - 1` has ended, or an earlier one where the body can be passed over. -/
theorem testBit_ended (h : Finds s (width * copies) body spans) {i j n b : Nat} (hlt : i < j)
    (hspans : Repeated spans n i j) (hn : n ≤ copies) (hbw : b < width)
    (hb : (enter i).testBit b = true) :
    ∃ r, r < n ∧ (r + 1 = n ∨ body.nullable.contains (s.place j) = true) ∧
      (inside s (.count places width min copies body) enter j).ended.testBit (b + r * width) =
        true := by
  induction n generalizing j with
  | zero => exact absurd hspans (Nat.ne_of_lt hlt)
  | succ n ih =>
    obtain ⟨k, hspans, hspan⟩ := hspans
    rcases Nat.eq_or_lt_of_le (h.le k j hspan) with rfl | hkj
    · obtain ⟨r, hr, -, hended⟩ := ih hlt hspans (Nat.le_of_succ_le hn)
      exact ⟨r, Nat.lt_succ_of_lt hr, .inr (h.nullable k hspan), hended⟩
    · obtain ⟨x, r, hx, hrn, hr, hentered⟩ := testBit_entered places min h hspans hn hbw hb
      have hcopy : (enterInside s places width min copies body enter k).testBit (b + n * width) =
          true := by
        have hlt : b + n * width < width * copies := Machine.block_lt hbw hn
        rw [← hx] at hlt ⊢
        exact Machine.testBit_enterCounted hentered hr (by omega) hlt
      have hended := h.ended (enterInside s places width min copies body enter)
        (fun i => Machine.enterCounted_lt ..) k j _ hkj hspan hcopy
      rw [← (marks_count places min h.rests j).1] at hended
      exact ⟨n, Nat.lt_succ_self n, .inl rfl, hended⟩

end

/-- **A counted repetition finds spans that are repeated as often as it says.** -/
theorem count (min : Nat) {copies : Nat} (h : Finds s (width * copies) body spans) :
    Finds s width (.count (if min = 0 then .all else body.nullable) width min copies body)
      fun i j => ∃ n, min ≤ n ∧ n ≤ copies ∧ Repeated spans n i j where
  le i j := by
    rintro ⟨n, -, -, hspans⟩
    exact hspans.le h
  rests before after n := by
    rw [Machine.shift]
    rfl
  ended_lt before after n enter k := by
    rw [(Machine.shift_count _ _ _ _ h.rests _ _ _ _ _).2]
    exact Machine.endedCounted_lt _
  nullable i := by
    rintro ⟨n, hmin, -, hspans⟩
    exact nullable_repeated h hmin hspans
  ended enter henter i j b hlt := by
    rintro ⟨n, hmin, hmax, hspans⟩ hb
    have hbw := Bits.lt_of_testBit (henter i) hb
    obtain ⟨r, hr, hlast, hended⟩ := testBit_ended _ min h hlt hspans hmax hbw hb
    rw [(marks_count _ min h.rests j).2]
    refine Machine.testBit_endedCounted hbw hended ?_ (Nat.lt_of_lt_of_le hr hmax)
    rcases hlast with rfl | hpasses
    · exact .inl hmin
    · exact .inr hpasses

/-! ## Repetitions -/

theorem Repeated.split {first rest i k : Nat} (h : Repeated spans (first + rest) i k) :
    ∃ j, Repeated spans first i j ∧ Repeated spans rest j k := by
  induction rest generalizing k with
  | zero => exact ⟨k, h, rfl⟩
  | succ rest ih =>
    obtain ⟨l, hspans, hspan⟩ := h
    obtain ⟨j, hfirst, hrest⟩ := ih hspans
    exact ⟨j, hfirst, l, hrest, hspan⟩

/-- **What repetitions find**, if the body finds its spans in any number of copies. -/
theorem repeating {body : Nat → Machine} (h : ∀ width, Finds s width (body width) spans)
    (width min : Nat) (max : Option Nat) :
    Finds s width (.repeating width min max body)
      fun i j => ∃ n, min ≤ n ∧ (∀ m, max = some m → n ≤ m) ∧ Repeated spans n i j := by
  have hloop := fun least => (h width).loop least
  have hcount := fun min copies => (h (width * copies)).count min
  unfold Machine.repeating
  dsimp only
  cases max with
  | some max =>
    dsimp only
    split
    · next hone =>
      obtain rfl := hone
      have hbody : ∀ part ∈ [(body width, spans)], Finds s width part.1 part.2 := by
        simpa using h width
      have hchoice := choiceOf .all _ hbody
      refine hchoice.mono fun i j ⟨n, _, hmax, hspans⟩ => ?_
      rcases Nat.le_one_iff_eq_zero_or_eq_one.1 (hmax 1 rfl) with rfl | rfl
      · exact .inl ⟨hspans, PlaceSet.contains_all _⟩
      · obtain ⟨k, rfl, hspan⟩ := hspans
        exact .inr ⟨_, List.mem_cons_self .., hspan⟩
    · exact (hcount min max).mono fun i j ⟨n, hmin, hmax, hspans⟩ => ⟨n, hmin, hmax max rfl, hspans⟩
  | none =>
    dsimp only
    split
    · exact (hloop 0).mono fun i j ⟨n, _, _, hspans⟩ => ⟨n, Nat.zero_le n, hspans⟩
    · next hpos =>
      split
      · exact (hloop 1).mono fun i j ⟨n, hmin, _, hspans⟩ => ⟨n, by omega, hspans⟩
      · have hboth : ∀ part ∈ [(_, _), (_, _)], Finds s width part.1 part.2 :=
          List.forall_mem_cons.2 ⟨hcount (min - 1) (min - 1),
            List.forall_mem_cons.2 ⟨hloop 1, List.forall_mem_nil _⟩⟩
        refine (rowOf _ hboth).mono fun i j ⟨n, hmin, _, hspans⟩ => ?_
        obtain ⟨rest, rfl⟩ := Nat.exists_eq_add_of_le (show min - 1 ≤ n by omega)
        obtain ⟨k, hfirst, hrest⟩ := hspans.split
        exact ⟨k, ⟨min - 1, Nat.le_refl _, Nat.le_refl _, hfirst⟩, j, ⟨rest, by omega, hrest⟩, rfl⟩

end Finds

end MarkupFilter.Pattern
