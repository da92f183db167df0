import MarkupFilter.Pattern.Letters

/-!
# Masks of letters

A table of masks gives each code point the bits of all sets that hold it: the bounds of the table are
those of all sets, in order, so no set changes between two of them, and the right mask is found by
halving.

## Main results

* `Halving.combine_spec` — what holds of values that are combined in pairs.
* `LetterTable.countUpTo_eq` — the bounds up to a number are counted.
* `LetterTable.testBit_mask_ofSets` — which bits the mask of a code point has.
-/

set_option autoImplicit false

namespace MarkupFilter.Pattern

/-! ## Values combined in pairs -/

namespace Halving

section

variable {α : Type} {op : α → α → α} {none : α} {P Q : α → Prop}

theorem length_pairs (done as : List α) :
    (pairs op done as).length = done.length + (as.length + 1) / 2 := by
  fun_induction pairs op done as with
  | case1 done => simp
  | case2 done a => simp
  | case3 done a b rest ih =>
    rw [ih]
    simp only [List.length_cons]
    omega

/-- Combining neighbours keeps `P`, and `Q` for some of the values. -/
theorem pairs_spec (hop : ∀ a b, P a → P b → P (op a b) ∧ (Q (op a b) ↔ Q a ∨ Q b))
    {done as : List α} (hdone : ∀ a ∈ done, P a) (has : ∀ a ∈ as, P a) :
    (∀ a ∈ pairs op done as, P a) ∧
      ((∃ a ∈ pairs op done as, Q a) ↔ (∃ a ∈ done, Q a) ∨ ∃ a ∈ as, Q a) := by
  fun_induction pairs op done as with
  | case1 done => exact ⟨hdone, by simp⟩
  | case2 done a =>
    refine ⟨fun b hb => ?_, by simp [or_comm]⟩
    rcases List.mem_cons.1 hb with rfl | hmem
    · exact has b (by simp)
    · exact hdone b hmem
  | case3 done a b rest ih =>
    obtain ⟨hP, hQ⟩ := hop a b (has a (by simp)) (has b (by simp))
    have hdone' : ∀ c ∈ op a b :: done, P c := by
      intro c hc
      rcases List.mem_cons.1 hc with rfl | hmem
      · exact hP
      · exact hdone c hmem
    obtain ⟨hall, hsome⟩ := ih hdone' fun c hc => has c (by simp [hc])
    refine ⟨hall, hsome.trans ?_⟩
    simp only [List.mem_cons, exists_eq_or_imp, hQ, or_assoc, or_left_comm]

/-- The fuel is enough as long as it is not less than the number of values without one. -/
theorem combineFrom_spec (hop : ∀ a b, P a → P b → P (op a b) ∧ (Q (op a b) ↔ Q a ∨ Q b))
    (hnone : P none ∧ ¬ Q none) {fuel : Nat} {as : List α} (hfuel : as.length ≤ fuel + 1)
    (has : ∀ a ∈ as, P a) :
    P (combineFrom op none fuel as) ∧ (Q (combineFrom op none fuel as) ↔ ∃ a ∈ as, Q a) := by
  fun_induction combineFrom op none fuel as with
  | case1 => exact ⟨hnone.1, by simp [hnone.2]⟩
  | case2 fuel a => exact ⟨has a (by simp), by simp⟩
  | case3 a rest hne =>
    match rest, hne with
    | [], hne => exact absurd rfl hne
    | b :: rest, _ => simp at hfuel
  | case4 fuel as hnil hone ih =>
    obtain ⟨hall, hsome⟩ := pairs_spec hop (List.forall_mem_nil P) has
    have hlength : (pairs op [] as).length ≤ fuel + 1 := by
      rw [length_pairs, List.length_nil]
      omega
    obtain ⟨hP, hQ⟩ := ih hlength hall
    exact ⟨hP, hQ.trans (hsome.trans (by simp))⟩

/-- **What holds of values that are combined in pairs**: `P` of all of them, and `Q` if it holds of
one. -/
theorem combine_spec (hop : ∀ a b, P a → P b → P (op a b) ∧ (Q (op a b) ↔ Q a ∨ Q b))
    (hnone : P none ∧ ¬ Q none) {as : List α} (has : ∀ a ∈ as, P a) :
    P (combine op none as) ∧ (Q (combine op none as) ↔ ∃ a ∈ as, Q a) :=
  combineFrom_spec hop hnone (Nat.le_succ _) has

end

end Halving

namespace LetterTable

/-! ## Looking up -/

/-- How many members at the start of a row have a property, if that is so of those before place `k`
and of the one there it is not. -/
theorem length_takeWhile_eq {p : Nat → Bool} {bounds : List Nat} {k : Nat} (hk : k ≤ bounds.length)
    (hbefore : ∀ i, i < k → ∀ hi : i < bounds.length, p bounds[i] = true)
    (hat : ∀ hlt : k < bounds.length, p bounds[k] = false) :
    (bounds.takeWhile p).length = k := by
  induction bounds generalizing k with
  | nil => exact (Nat.le_zero.1 hk).symm
  | cons b bounds ih =>
    cases k with
    | zero =>
      have hb : p b = false := hat (Nat.succ_pos _)
      rw [List.takeWhile_cons_of_neg (by simp [hb]), List.length_nil]
    | succ k =>
      have hb : p b = true := hbefore 0 (Nat.succ_pos k) (Nat.succ_pos _)
      rw [List.takeWhile_cons_of_pos hb, List.length_cons]
      refine congrArg (· + 1) (ih (Nat.le_of_succ_le_succ hk) (fun i hi hlt => ?_) fun hlt => ?_)
      · exact hbefore (i + 1) (Nat.succ_lt_succ hi) (Nat.succ_lt_succ hlt)
      · exact hat (Nat.succ_lt_succ hlt)

/-- In an ascending row, `k` members are at most `n` if that is so of those before place `k` only. -/
theorem countUpTo_eq {bounds : Array Nat} (hbounds : bounds.toList.Pairwise (· < ·)) (n : Nat)
    {fuel low high : Nat} (hle : low ≤ high) (hsize : high ≤ bounds.size) (hfuel : high - low ≤ fuel)
    (hlow : ∀ i, i < low → bounds.getD i 0 ≤ n)
    (hhigh : ∀ i, high ≤ i → i < bounds.size → n < bounds.getD i 0) :
    let k := countUpTo bounds n fuel low high
    k ≤ bounds.size ∧ (∀ i, i < k → bounds.getD i 0 ≤ n) ∧
      ∀ i, k ≤ i → i < bounds.size → n < bounds.getD i 0 := by
  have hget : ∀ i j, i < j → j < bounds.size → bounds.getD i 0 < bounds.getD j 0 := by
    intro i j hij hj
    have := List.pairwise_iff_getElem.1 hbounds i j (by simpa using Nat.lt_trans hij hj)
      (by simpa using hj) hij
    simpa [Array.getD, hj, Nat.lt_trans hij hj] using this
  fun_induction countUpTo bounds n fuel low high with
  | case1 low high =>
    obtain rfl : low = high := by omega
    exact ⟨hsize, hlow, hhigh⟩
  | case2 fuel low high hstop =>
    obtain rfl : low = high := by omega
    exact ⟨hsize, hlow, hhigh⟩
  | case3 fuel low high hgo middle hmiddle ih =>
    refine ih (by omega) hsize (by omega) (fun i hi => ?_) hhigh
    rcases Nat.lt_succ_iff_lt_or_eq.1 hi with hlt | rfl
    · exact Nat.le_trans (Nat.le_of_lt (hget i middle hlt (by omega))) hmiddle
    · exact hmiddle
  | case4 fuel low high hgo middle hmiddle ih =>
    refine ih (by omega) (by omega) (by omega) hlow fun i hi hi' => ?_
    rcases Nat.eq_or_lt_of_le hi with rfl | hlt
    · omega
    · have := hget middle i hlt hi'
      omega

/-- The number of members up to `n` is the length of the row of them. -/
theorem countUpTo_eq_length {bounds : Array Nat} (hbounds : bounds.toList.Pairwise (· < ·))
    (n : Nat) : countUpTo bounds n bounds.size 0 bounds.size =
      (bounds.toList.takeWhile (· ≤ n)).length := by
  obtain ⟨hsize, hupTo, hafter⟩ := countUpTo_eq hbounds n (Nat.zero_le bounds.size)
    (Nat.le_refl _) (Nat.le_refl _) (fun i hi => absurd hi (Nat.not_lt_zero i))
    (fun i hle hlt => absurd hlt (Nat.not_lt.2 hle))
  have hget : ∀ i (hi : i < bounds.toList.length), bounds.toList[i] = bounds.getD i 0 := by
    intro i hi
    simp [Array.getD, show i < bounds.size from hi]
  refine (length_takeWhile_eq hsize (fun i hi hlt => ?_) fun hlt => ?_).symm
  · exact decide_eq_true (hget i hlt ▸ hupTo i hi)
  · exact decide_eq_false (Nat.not_le.2 (hget _ hlt ▸ hafter _ (Nat.le_refl _) hlt))

/-! ## Building -/

/-- The members of two rows that are merged. -/
theorem mem_merge {fuel : Nat} {xs ys : List Nat} (hfuel : xs.length + ys.length ≤ fuel) (a : Nat) :
    a ∈ merge fuel xs ys ↔ a ∈ xs ∨ a ∈ ys := by
  fun_induction merge fuel xs ys with
  | case1 xs ys =>
    have hxs : xs = [] := List.eq_nil_of_length_eq_zero (by omega)
    have hys : ys = [] := List.eq_nil_of_length_eq_zero (by omega)
    simp [hxs, hys]
  | case2 => simp
  | case3 => simp
  | case4 fuel x xs y ys hlt ih =>
    rw [List.mem_cons, ih (by simp only [List.length_cons] at hfuel ⊢; omega),
      List.mem_cons (l := xs), or_assoc]
  | case5 fuel x xs y ys _ hgt ih =>
    rw [List.mem_cons, ih (by simp only [List.length_cons] at hfuel ⊢; omega),
      List.mem_cons (l := ys), or_left_comm]
  | case6 fuel x xs y ys hge hle ih =>
    obtain rfl : x = y := by omega
    rw [List.mem_cons, ih (by simp only [List.length_cons] at hfuel ⊢; omega), List.mem_cons,
      List.mem_cons]
    grind

/-- Two ascending rows are merged into an ascending row. -/
theorem pairwise_merge {fuel : Nat} {xs ys : List Nat} (hfuel : xs.length + ys.length ≤ fuel)
    (hxs : xs.Pairwise (· < ·)) (hys : ys.Pairwise (· < ·)) :
    (merge fuel xs ys).Pairwise (· < ·) := by
  fun_induction merge fuel xs ys with
  | case1 => exact .nil
  | case2 => exact hys
  | case3 => exact hxs
  | case4 fuel x xs y ys hlt ih =>
    have hfuel' : xs.length + (y :: ys).length ≤ fuel := by
      simp only [List.length_cons] at hfuel ⊢
      omega
    obtain ⟨hx, hxs⟩ := List.pairwise_cons.1 hxs
    refine List.pairwise_cons.2 ⟨fun a ha => ?_, ih hfuel' hxs hys⟩
    rcases (mem_merge hfuel' a).1 ha with hmem | hmem
    · exact hx a hmem
    · rcases List.mem_cons.1 hmem with rfl | hmem
      · exact hlt
      · exact Nat.lt_trans hlt ((List.pairwise_cons.1 hys).1 a hmem)
  | case5 fuel x xs y ys _ hgt ih =>
    have hfuel' : (x :: xs).length + ys.length ≤ fuel := by
      simp only [List.length_cons] at hfuel ⊢
      omega
    obtain ⟨hy, hys⟩ := List.pairwise_cons.1 hys
    refine List.pairwise_cons.2 ⟨fun a ha => ?_, ih hfuel' hxs hys⟩
    rcases (mem_merge hfuel' a).1 ha with hmem | hmem
    · rcases List.mem_cons.1 hmem with rfl | hmem
      · exact hgt
      · exact Nat.lt_trans hgt ((List.pairwise_cons.1 hxs).1 a hmem)
    · exact hy a hmem
  | case6 fuel x xs y ys hge hle ih =>
    have hfuel' : xs.length + ys.length ≤ fuel := by
      simp only [List.length_cons] at hfuel
      omega
    obtain rfl : x = y := by omega
    obtain ⟨hx, hxs⟩ := List.pairwise_cons.1 hxs
    obtain ⟨hy, hys⟩ := List.pairwise_cons.1 hys
    refine List.pairwise_cons.2 ⟨fun a ha => ?_, ih hfuel' hxs hys⟩
    rcases (mem_merge hfuel' a).1 ha with hmem | hmem
    · exact hx a hmem
    · exact hy a hmem

theorem length_add (mask : Nat) (inside : Bool) (own bounds masks : List Nat)
    (hlength : masks.length = bounds.length + 1) :
    (add mask inside own bounds masks).length = masks.length := by
  fun_induction add mask inside own bounds masks with
  | case1 => simp
  | case2 => simp at hlength
  | case3 inside b bounds m masks m' ih => simp_all
  | case4 inside b bounds m masks m' own ih => simp_all
  | case5 inside b bounds m masks m' d own hne ih => simp_all

/-- Between its boundaries, a set adds its mask to the masks. -/
theorem getD_add (mask : Nat) (inside : Bool) {own bounds masks : List Nat}
    (hlength : masks.length = bounds.length + 1) (hown : own.Pairwise (· < ·))
    (hbounds : bounds.Pairwise (· < ·)) (hsub : ∀ d ∈ own, d ∈ bounds) (n : Nat) :
    (add mask inside own bounds masks).getD (bounds.takeWhile (· ≤ n)).length 0 =
      let m := masks.getD (bounds.takeWhile (· ≤ n)).length 0
      if CharClass.memberFrom inside n own then m ||| mask else m := by
  have hbefore : ∀ {b : Nat} {bounds own : List Nat}, (b :: bounds).Pairwise (· < ·) →
      (∀ d ∈ own, d ∈ b :: bounds) → n < b → ∀ d ∈ own, n < d := by
    intro b bounds own hasc hsub hlt d hd
    rcases List.mem_cons.1 (hsub d hd) with rfl | hmem
    · exact hlt
    · exact Nat.lt_trans hlt ((List.pairwise_cons.1 hasc).1 d hmem)
  fun_induction add mask inside own bounds masks with
  | case1 inside own masks =>
    obtain ⟨m, rfl⟩ : ∃ m, masks = [m] := List.length_eq_one_iff.1 hlength
    obtain rfl : own = [] := List.eq_nil_iff_forall_not_mem.2 fun d hd => by simpa using hsub d hd
    simp [CharClass.memberFrom]
  | case2 => simp at hlength
  | case3 inside b bounds m masks m' ih =>
    have ih := ih (by simpa using hlength) .nil (List.pairwise_cons.1 hbounds).2 (by simp)
    by_cases hle : b ≤ n
    · simpa [hle, CharClass.memberFrom] using ih
    · simp [hle, CharClass.memberFrom, m']
  | case4 inside bounds m masks m' b own ih =>
    obtain ⟨hb, hown'⟩ := List.pairwise_cons.1 hown
    have ih := ih (by simpa using hlength) hown' (List.pairwise_cons.1 hbounds).2 fun d hd =>
      (List.mem_cons.1 (hsub d (List.mem_cons_of_mem _ hd))).resolve_left fun heq =>
        Nat.ne_of_gt (hb d hd) heq
    by_cases hle : b ≤ n
    · simpa [hle, CharClass.memberFrom, Nat.not_lt.2 hle] using ih
    · have hinside := CharClass.memberFrom_of_lt inside n (b :: own)
        (hbefore hbounds hsub (Nat.not_le.1 hle))
      simp [hle, hinside, m']
  | case5 inside b bounds m masks m' d own hne ih =>
    by_cases hle : b ≤ n
    · have hd : d ∈ bounds := (List.mem_cons.1 (hsub d (by simp))).resolve_left hne
      have hlater : ∀ e ∈ d :: own, e ∈ bounds := by
        intro e he
        refine (List.mem_cons.1 (hsub e he)).resolve_left fun heq => ?_
        have hbd := (List.pairwise_cons.1 hbounds).1 d hd
        rcases List.mem_cons.1 he with rfl | hmem
        · omega
        · have := (List.pairwise_cons.1 hown).1 e hmem
          omega
      have ih := ih (by simpa using hlength) hown (List.pairwise_cons.1 hbounds).2 hlater
      simpa [hle] using ih
    · have hinside := CharClass.memberFrom_of_lt inside n (d :: own)
        (hbefore hbounds hsub (Nat.not_le.1 hle))
      simp [hle, hinside, m']

/-- The masks between bounds, after the sets have added theirs. -/
theorem testBit_foldl_add {bounds : List Nat} (hbounds : bounds.Pairwise (· < ·)) (n x : Nat)
    {sets : List (CharClass × Nat)} (hsub : ∀ entry ∈ sets, ∀ d ∈ entry.1.boundaries, d ∈ bounds)
    {masks : List Nat} (hlength : masks.length = bounds.length + 1) :
    ((sets.foldl (fun masks (set, mask) => add mask false set.boundaries bounds masks) masks).getD
        (bounds.takeWhile (· ≤ n)).length 0).testBit x = true ↔
      (masks.getD (bounds.takeWhile (· ≤ n)).length 0).testBit x = true ∨
        ∃ entry ∈ sets, entry.1.containsCode n = true ∧ entry.2.testBit x = true := by
  induction sets generalizing masks with
  | nil => simp
  | cons entry sets ih =>
    obtain ⟨set, mask⟩ := entry
    have hadded := getD_add mask false hlength set.ascending hbounds
      (hsub _ (List.mem_cons_self ..)) n
    have hrest := ih (fun entry hentry => hsub entry (List.mem_cons_of_mem _ hentry))
      ((length_add mask false set.boundaries _ _ hlength).trans hlength)
    rw [List.foldl_cons, hrest, hadded]
    simp only [List.mem_cons, exists_eq_or_imp, ← or_assoc]
    refine or_congr ?_ Iff.rfl
    change (if set.containsCode n then _ else _ : Nat).testBit x = true ↔ _
    cases hn : set.containsCode n <;> simp

/-- **Which bits the mask of a code point has**: those of the sets that hold it. -/
theorem testBit_mask_ofSets (sets : List (CharClass × Nat)) (n x : Nat) :
    ((ofSets sets).mask n).testBit x = true ↔
      ∃ entry ∈ sets, entry.1.containsCode n = true ∧ entry.2.testBit x = true := by
  let union (xs ys : List Nat) : List Nat := merge (xs.length + ys.length) xs ys
  let bounds := Halving.combine union [] (sets.map fun entry => entry.1.boundaries)
  have hunion : ∀ d : Nat, bounds.Pairwise (· < ·) ∧
      (d ∈ bounds ↔ ∃ own ∈ sets.map fun entry => entry.1.boundaries, d ∈ own) := by
    intro d
    refine Halving.combine_spec (P := fun xs => xs.Pairwise (· < ·)) (Q := fun xs => d ∈ xs)
      (fun xs ys hxs hys => ⟨pairwise_merge (Nat.le_refl _) hxs hys, mem_merge (Nat.le_refl _) d⟩)
      ⟨.nil, List.not_mem_nil⟩ ?_
    intro own hown
    obtain ⟨entry, -, rfl⟩ := List.mem_map.1 hown
    exact entry.1.ascending
  have hbounds : bounds.Pairwise (· < ·) := (hunion 0).1
  have hsub : ∀ entry ∈ sets, ∀ d ∈ entry.1.boundaries, d ∈ bounds := fun entry hentry d hd =>
    (hunion d).2.2 ⟨_, List.mem_map_of_mem hentry, hd⟩
  have hlength : (List.replicate (bounds.length + 1) 0).length = bounds.length + 1 :=
    List.length_replicate ..
  have hmasks := testBit_foldl_add hbounds n x hsub hlength
  have hcount : countUpTo bounds.toArray n bounds.toArray.size 0 bounds.toArray.size =
      (bounds.takeWhile (· ≤ n)).length := countUpTo_eq_length hbounds n
  have hmask : (ofSets sets).mask n =
      (sets.foldl (fun masks (set, mask) => add mask false set.boundaries bounds masks)
        (List.replicate (bounds.length + 1) 0)).getD (bounds.takeWhile (· ≤ n)).length 0 := by
    show (List.toArray _).getD
      (countUpTo bounds.toArray n bounds.toArray.size 0 bounds.toArray.size) 0 = _
    rw [hcount, Array.getD_eq_getD_getElem?, List.getElem?_toArray, List.getD_eq_getElem?_getD]
  have hempty : (List.replicate (bounds.length + 1) 0).getD (bounds.takeWhile (· ≤ n)).length 0 =
      0 := by
    rw [List.getD_eq_getElem?_getD, List.getElem?_replicate]
    split <;> rfl
  rw [hmask, hmasks, hempty, Nat.zero_testBit]
  simp

end LetterTable

end MarkupFilter.Pattern
