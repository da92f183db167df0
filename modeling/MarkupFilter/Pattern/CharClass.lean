import MarkupFilter.Pattern.Halving
import MarkupFilter.Text.CaseFolding

/-!
# Sets of characters

A set of characters is kept as the ascending row of code points at which membership changes: it
holds nothing before the first of them, everything up to the second, and so on. Every set has
exactly one such row, and all Boolean operations are the same walk along two rows.

## Main definitions

* `CharClass` — sets of characters.
* `CharClass.contains` — membership.
* `CharClass.union`, `inter`, `diff`, `symmDiff`, `compl` — the operations.
* `CharClass.foldCase`, `CharClass.foldAsciiCase` — the closures under case variants.

## Main results

* `CharClass.contains_union` and its like — membership in the result of an operation.
-/

set_option autoImplicit false

namespace MarkupFilter.Pattern

/-- A set of characters, by the code points at which membership changes. -/
structure CharClass where
  boundaries : List Nat
  ascending : boundaries.Pairwise (· < ·)
  deriving DecidableEq

namespace CharClass

/-! ## Membership -/

/-- Whether the code point `n` is in the set with the given boundaries, where `inside` says whether
it is as long as no boundary has been reached. -/
def memberFrom (inside : Bool) (n : Nat) : List Nat → Bool
  | [] => inside
  | b :: bs => if n < b then inside else memberFrom (!inside) n bs

/-- Whether the code point `n` is in the set. -/
def containsCode (s : CharClass) (n : Nat) : Bool :=
  memberFrom false n s.boundaries

/-- Whether `c` is in the set. -/
def contains (s : CharClass) (c : Char) : Bool :=
  s.containsCode c.toNat

theorem memberFrom_of_lt (inside : Bool) (n : Nat) (bs : List Nat) (h : ∀ b ∈ bs, n < b) :
    memberFrom inside n bs = inside := by
  cases bs with
  | nil => rfl
  | cons b bs => simp [memberFrom, h b]

/-! ## Walking along two sets -/

/-- A boundary at `n` before `bs`, if membership changes there from `before` to `after`. -/
def change (before after : Bool) (n : Nat) (bs : List Nat) : List Nat :=
  if before = after then bs else n :: bs

/-- The boundaries of the set of all code points for which `f` holds of their membership in two
sets, given the boundaries of these and whether they hold what comes before. The fuel is the number
of boundaries. -/
def combineFrom (f : Bool → Bool → Bool) : Nat → Bool → Bool → List Nat → List Nat → List Nat
  | 0, _, _, _, _ => []
  | _ + 1, _, _, [], [] => []
  | fuel + 1, a, b, x :: xs, [] =>
    change (f a b) (f (!a) b) x (combineFrom f fuel (!a) b xs [])
  | fuel + 1, a, b, [], y :: ys =>
    change (f a b) (f a (!b)) y (combineFrom f fuel a (!b) [] ys)
  | fuel + 1, a, b, x :: xs, y :: ys =>
    if x < y then change (f a b) (f (!a) b) x (combineFrom f fuel (!a) b xs (y :: ys))
    else if y < x then change (f a b) (f a (!b)) y (combineFrom f fuel a (!b) (x :: xs) ys)
    else change (f a b) (f (!a) (!b)) x (combineFrom f fuel (!a) (!b) xs ys)

theorem mem_change {before after : Bool} {n m : Nat} {bs : List Nat}
    (h : m ∈ change before after n bs) : m = n ∨ m ∈ bs := by
  unfold change at h
  split at h
  · exact .inr h
  · simpa using h

theorem pairwise_change {before after : Bool} {n : Nat} {bs : List Nat}
    (hbs : bs.Pairwise (· < ·)) (hn : ∀ m ∈ bs, n < m) :
    (change before after n bs).Pairwise (· < ·) := by
  unfold change
  split
  · exact hbs
  · exact List.pairwise_cons.2 ⟨hn, hbs⟩

theorem memberFrom_change {before after : Bool} {n m : Nat} {bs : List Nat}
    (hn : ∀ k ∈ bs, n < k) :
    memberFrom before m (change before after n bs) =
      if m < n then before else memberFrom after m bs := by
  unfold change
  split
  · rename_i h
    subst h
    split
    · rename_i h
      exact memberFrom_of_lt _ _ _ fun k hk => Nat.lt_trans h (hn k hk)
    · rfl
  · rename_i h
    simp only [memberFrom]
    split
    · rfl
    · congr 1
      cases before <;> cases after <;> simp_all

/-- A boundary of the result is a boundary of one of the two sets. -/
theorem mem_of_mem_combineFrom {f : Bool → Bool → Bool} {fuel : Nat} {a b : Bool}
    {xs ys : List Nat} {m : Nat} (h : m ∈ combineFrom f fuel a b xs ys) : m ∈ xs ∨ m ∈ ys := by
  induction fuel, a, b, xs, ys using combineFrom.induct with
  | case1 => simp [combineFrom] at h
  | case2 => simp [combineFrom] at h
  | case3 fuel a b x xs ih =>
    rcases mem_change h with rfl | h
    · simp
    · rcases ih h with h | h <;> simp_all
  | case4 fuel a b y ys ih =>
    rcases mem_change h with rfl | h
    · simp
    · rcases ih h with h | h <;> simp_all
  | case5 fuel a b x xs y ys hlt ih =>
    rw [combineFrom, if_pos hlt] at h
    rcases mem_change h with rfl | h
    · simp
    · rcases ih h with h | h <;> simp_all
  | case6 fuel a b x xs y ys hlt hgt ih =>
    rw [combineFrom, if_neg hlt, if_pos hgt] at h
    rcases mem_change h with rfl | h
    · simp
    · rcases ih h with h | h <;> simp_all
  | case7 fuel a b x xs y ys hlt hgt ih =>
    rw [combineFrom, if_neg hlt, if_neg hgt] at h
    rcases mem_change h with rfl | h
    · simp
    · rcases ih h with h | h <;> simp_all

/-- The boundaries of the result ascend, and membership in it is as `f` says. -/
theorem combineFrom_spec {f : Bool → Bool → Bool} {fuel : Nat} {a b : Bool} {xs ys : List Nat}
    (hfuel : xs.length + ys.length ≤ fuel) (hxs : xs.Pairwise (· < ·))
    (hys : ys.Pairwise (· < ·)) :
    (combineFrom f fuel a b xs ys).Pairwise (· < ·) ∧
      ∀ n, memberFrom (f a b) n (combineFrom f fuel a b xs ys) =
        f (memberFrom a n xs) (memberFrom b n ys) := by
  induction fuel, a, b, xs, ys using combineFrom.induct with
  | case1 a b xs ys =>
    have hx : xs = [] := List.length_eq_zero_iff.1 (by omega)
    have hy : ys = [] := List.length_eq_zero_iff.1 (by omega)
    subst hx hy
    simp [combineFrom, memberFrom]
  | case2 => simp [combineFrom, memberFrom]
  | case3 fuel a b x xs ih =>
    have hx := List.pairwise_cons.1 hxs
    have := ih (by simp_all) hx.2 hys
    have hlow : ∀ m ∈ combineFrom f fuel (!a) b xs [], x < m := fun m hm => by
      rcases mem_of_mem_combineFrom hm with h | h
      · exact hx.1 m h
      · simp at h
    rw [combineFrom]
    refine ⟨pairwise_change this.1 hlow, fun n => ?_⟩
    rw [memberFrom_change hlow, this.2]
    by_cases h : n < x <;> simp [memberFrom, h]
  | case4 fuel a b y ys ih =>
    have hy := List.pairwise_cons.1 hys
    have := ih (by simp_all) hxs hy.2
    have hlow : ∀ m ∈ combineFrom f fuel a (!b) [] ys, y < m := fun m hm => by
      rcases mem_of_mem_combineFrom hm with h | h
      · simp at h
      · exact hy.1 m h
    rw [combineFrom]
    refine ⟨pairwise_change this.1 hlow, fun n => ?_⟩
    rw [memberFrom_change hlow, this.2]
    by_cases h : n < y <;> simp [memberFrom, h]
  | case5 fuel a b x xs y ys hlt ih =>
    have hx := List.pairwise_cons.1 hxs
    have hy := List.pairwise_cons.1 hys
    have := ih (by simp_all; omega) hx.2 hys
    have hlow : ∀ m ∈ combineFrom f fuel (!a) b xs (y :: ys), x < m := fun m hm => by
      rcases mem_of_mem_combineFrom hm with h | h
      · exact hx.1 m h
      · rcases List.mem_cons.1 h with rfl | h
        · exact hlt
        · exact Nat.lt_trans hlt (hy.1 m h)
    rw [combineFrom, if_pos hlt]
    refine ⟨pairwise_change this.1 hlow, fun n => ?_⟩
    rw [memberFrom_change hlow, this.2]
    by_cases h : n < x
    · simp [memberFrom, h, Nat.lt_trans h hlt]
    · simp [memberFrom, h]
  | case6 fuel a b x xs y ys hlt hgt ih =>
    have hx := List.pairwise_cons.1 hxs
    have hy := List.pairwise_cons.1 hys
    have := ih (by simp_all; omega) hxs hy.2
    have hlow : ∀ m ∈ combineFrom f fuel a (!b) (x :: xs) ys, y < m := fun m hm => by
      rcases mem_of_mem_combineFrom hm with h | h
      · rcases List.mem_cons.1 h with rfl | h
        · exact hgt
        · exact Nat.lt_trans hgt (hx.1 m h)
      · exact hy.1 m h
    rw [combineFrom, if_neg hlt, if_pos hgt]
    refine ⟨pairwise_change this.1 hlow, fun n => ?_⟩
    rw [memberFrom_change hlow, this.2]
    by_cases h : n < y
    · simp [memberFrom, h, Nat.lt_trans h hgt]
    · simp [memberFrom, h]
  | case7 fuel a b x xs y ys hlt hgt ih =>
    have hx := List.pairwise_cons.1 hxs
    have hy := List.pairwise_cons.1 hys
    obtain rfl : x = y := by omega
    have := ih (by simp_all; omega) hx.2 hy.2
    have hlow : ∀ m ∈ combineFrom f fuel (!a) (!b) xs ys, x < m := fun m hm => by
      rcases mem_of_mem_combineFrom hm with h | h
      · exact hx.1 m h
      · exact hy.1 m h
    rw [combineFrom, if_neg hlt, if_neg hgt]
    refine ⟨pairwise_change this.1 hlow, fun n => ?_⟩
    rw [memberFrom_change hlow, this.2]
    by_cases h : n < x <;> simp [memberFrom, h]

/-- The set of all code points for which `f` holds of their membership in `s` and in `t`; `f` must
not hold of what is in neither. -/
def combine (f : Bool → Bool → Bool) (s t : CharClass) : CharClass :=
  ⟨combineFrom f (s.boundaries.length + t.boundaries.length) false false s.boundaries
    t.boundaries, (combineFrom_spec (Nat.le_refl _) s.ascending t.ascending).1⟩

theorem containsCode_combine {f : Bool → Bool → Bool} (hf : f false false = false)
    (s t : CharClass) (n : Nat) :
    (combine f s t).containsCode n = f (s.containsCode n) (t.containsCode n) := by
  have := (combineFrom_spec (f := f) (a := false) (b := false) (Nat.le_refl _) s.ascending
    t.ascending).2 n
  rw [hf] at this
  exact this

/-! ## Operations -/

/-- What is in either set. -/
def union (s t : CharClass) : CharClass :=
  combine (fun a b => a || b) s t

/-- What is in both sets. -/
def inter (s t : CharClass) : CharClass :=
  combine (fun a b => a && b) s t

/-- What is in the first set and not in the second. -/
def diff (s t : CharClass) : CharClass :=
  combine (fun a b => a && !b) s t

/-- What is in exactly one of the sets. -/
def symmDiff (s t : CharClass) : CharClass :=
  combine (fun a b => a != b) s t

/-- No character. -/
def empty : CharClass :=
  ⟨[], .nil⟩

/-- Every character: the code points up to `10FFFF` without the surrogates. -/
def all : CharClass :=
  ⟨[0, 0xD800, 0xE000, 0x110000], by decide⟩

/-- What is not in the set. -/
def compl (s : CharClass) : CharClass :=
  all.diff s

/-- The boundaries of a range are in order. -/
theorem ascending_pair {low high : Nat} (h : low ≤ high) :
    [low, high + 1].Pairwise (· < ·) :=
  List.pairwise_pair.2 (Nat.lt_succ_of_le h)

/-- The characters from the code point `low` to the code point `high`. -/
def range (low high : Nat) : CharClass :=
  if h : low ≤ high then all.inter ⟨[low, high + 1], ascending_pair h⟩ else empty

/-- The set of one character. -/
def single (c : Char) : CharClass :=
  range c.toNat c.toNat

/-- The union of a row of sets. -/
def unionAll (ss : List CharClass) : CharClass :=
  Halving.combine union empty ss

/-- The union of ranges of code points. -/
def ofRanges (ranges : List (Nat × Nat)) : CharClass :=
  unionAll (ranges.map fun (low, high) => range low high)

/-- The set of the given characters. -/
def ofChars (cs : List Char) : CharClass :=
  unionAll (cs.map single)

@[simp] theorem contains_union (s t : CharClass) (c : Char) :
    (s.union t).contains c = (s.contains c || t.contains c) :=
  containsCode_combine rfl s t c.toNat

@[simp] theorem contains_inter (s t : CharClass) (c : Char) :
    (s.inter t).contains c = (s.contains c && t.contains c) :=
  containsCode_combine rfl s t c.toNat

@[simp] theorem contains_diff (s t : CharClass) (c : Char) :
    (s.diff t).contains c = (s.contains c && !t.contains c) :=
  containsCode_combine rfl s t c.toNat

@[simp] theorem contains_symmDiff (s t : CharClass) (c : Char) :
    (s.symmDiff t).contains c = (s.contains c != t.contains c) :=
  containsCode_combine rfl s t c.toNat

@[simp] theorem contains_empty (c : Char) : empty.contains c = false := rfl

@[simp] theorem contains_all (c : Char) : all.contains c = true := by
  have h := c.valid
  have hc : c.toNat = c.val.toNat := rfl
  simp only [contains, containsCode, all, memberFrom, hc]
  rcases h with h | h <;> simp <;> omega

@[simp] theorem contains_compl (s : CharClass) (c : Char) :
    s.compl.contains c = !s.contains c := by
  simp [compl]

theorem contains_range (low high : Nat) (c : Char) :
    (range low high).contains c = (decide (low ≤ c.toNat) && decide (c.toNat ≤ high)) := by
  unfold range
  split
  · rw [contains_inter, contains_all]
    simp only [contains, containsCode, memberFrom, Bool.true_and]
    split
    · simp; omega
    · split <;> simp <;> omega
  · simp; omega

@[simp] theorem contains_single (c d : Char) : (single c).contains d = (d == c) := by
  rw [single, contains_range]
  by_cases h : d = c
  · simp [h]
  · have : d.toNat ≠ c.toNat := fun e => h (Char.toNat_inj.1 e)
    rw [beq_false_of_ne h, Bool.and_eq_false_iff, decide_eq_false_iff_not, decide_eq_false_iff_not]
    omega

/-! ## Views -/

/-- The ranges of code points between two boundaries and the next two, and so on. -/
def rangesFrom : List Nat → List (Nat × Nat)
  | low :: next :: bs => (low, next - 1) :: rangesFrom bs
  | _ => []

/-- The set as ascending ranges of code points with gaps between them. -/
def ranges (s : CharClass) : List (Nat × Nat) :=
  rangesFrom s.boundaries

/-- Whether there is no character in the set. -/
def isEmpty (s : CharClass) : Bool :=
  s.boundaries.isEmpty

/-- Whether the set has ASCII characters only. -/
def isAscii (s : CharClass) : Bool :=
  s.boundaries.all (· ≤ 0x80)

/-- The only character of the set, if it has exactly one. -/
def single? (s : CharClass) : Option Char :=
  match s.boundaries with
  | [low, next] => if next = low + 1 then some (Char.ofNat low) else none
  | _ => none

/-! ## Letter case -/

/-- The set with all case variants of its characters: those they fold to, and all that fold to any
of these. -/
def foldCase (s : CharClass) : CharClass :=
  let pick (pairs : List (Nat × Nat)) : CharClass := ofRanges (pairs.map fun (n, _) => (n, n))
  let folded := CaseFolding.pairs.filter fun (n, _) => s.containsCode n
  let t := s.union (pick (folded.map fun (n, m) => (m, n)))
  t.union (pick (CaseFolding.pairs.filter fun (_, m) => t.containsCode m))

/-- The set with both cases of its ASCII letters. -/
def foldAsciiCase (s : CharClass) : CharClass :=
  s.union (ofRanges ((List.range 26).flatMap fun i =>
    let capital := 0x41 + i
    let small := 0x61 + i
    (if s.containsCode capital then [(small, small)] else []) ++
      (if s.containsCode small then [(capital, capital)] else [])))

end CharClass

end MarkupFilter.Pattern
