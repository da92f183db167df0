/-!
# Numerals that name characters

A character can be written by its code point, in decimal or hexadecimal digits. The notations
that do so (character references, code points of the rule notation, escapes of patterns) share
the reading of digits and the test that the number is a Unicode scalar value.

## Main definitions

* `Numeral.digit?` — the value of one digit in a base.
* `Numeral.value` — the number a row of digits stands for.
* `Numeral.valueBelow` — the same, as far as it is below a limit.
* `Numeral.scalar?` — the character with a given code point.

## Main results

* `Numeral.char?_eq` — the character of a row of digits is that of its number.
-/

set_option autoImplicit false

namespace MarkupFilter.Numeral

/-- The value of `c` as a digit of base 10 or 16; only ASCII digits and letters count. -/
def digit? (base : Nat) (c : Char) : Option Nat :=
  let n :=
    if '0' ≤ c && c ≤ '9' then c.toNat - '0'.toNat
    else if 'a' ≤ c && c ≤ 'z' then c.toNat - 'a'.toNat + 10
    else if 'A' ≤ c && c ≤ 'Z' then c.toNat - 'A'.toNat + 10
    else base
  if n < base then some n else none

/-- Whether `c` is a digit of base 10 or 16. -/
def isDigit (base : Nat) (c : Char) : Bool :=
  (digit? base c).isSome

/-- The number written by `digits`, most significant first. -/
def value (base : Nat) (digits : List Char) : Nat :=
  digits.foldl (fun n c => n * base + (digit? base c).getD 0) 0

/-- The character with code point `n`, unless `n` is a surrogate or above `10FFFF`. -/
def scalar? (n : Nat) : Option Char :=
  if n < 0xD800 || (0xDFFF < n && n < 0x110000) then some (Char.ofNat n) else none

/-- The number written by `digits` if it is less than `limit`, and some number that is not less
otherwise; so a long row of digits costs no more than its length. -/
def valueBelow (limit base : Nat) (digits : List Char) : Nat :=
  digits.foldl (fun n c => if n < limit then n * base + (digit? base c).getD 0 else n) 0

/-- The character whose code point is written by `digits`; none without digits. -/
def char? (base : Nat) (digits : List Char) : Option Char :=
  if digits.isEmpty then none else scalar? (valueBelow 0x110000 base digits)

theorem foldl_ge {limit base : Nat} (hb : 0 < base) (digits : List Char) {n : Nat}
    (h : limit ≤ n) :
    limit ≤ digits.foldl (fun n c => n * base + (digit? base c).getD 0) n := by
  induction digits generalizing n with
  | nil => exact h
  | cons c cs ih =>
    exact ih (Nat.le_trans h (Nat.le_trans (Nat.le_mul_of_pos_right n hb) (Nat.le_add_right _ _)))

theorem foldl_keep {limit base : Nat} (digits : List Char) {n : Nat} (h : limit ≤ n) :
    digits.foldl (fun n c => if n < limit then n * base + (digit? base c).getD 0 else n) n = n := by
  induction digits with
  | nil => rfl
  | cons c cs ih => rw [List.foldl_cons, if_neg (Nat.not_lt.2 h), ih]

theorem foldl_eq_or (limit : Nat) {base : Nat} (hb : 0 < base) (digits : List Char) (n : Nat) :
    let capped := digits.foldl
      (fun n c => if n < limit then n * base + (digit? base c).getD 0 else n) n
    let number := digits.foldl (fun n c => n * base + (digit? base c).getD 0) n
    capped = number ∨ limit ≤ capped ∧ limit ≤ number := by
  induction digits generalizing n with
  | nil => exact .inl rfl
  | cons c cs ih =>
    simp only [List.foldl_cons]
    by_cases h : n < limit
    · rw [if_pos h]
      exact ih _
    · rw [if_neg h, foldl_keep cs (Nat.not_lt.1 h)]
      refine .inr ⟨Nat.not_lt.1 h, foldl_ge hb cs ?_⟩
      exact Nat.le_trans (Nat.not_lt.1 h)
        (Nat.le_trans (Nat.le_mul_of_pos_right n hb) (Nat.le_add_right _ _))

/-- The number below the limit is the number, or both reach the limit. -/
theorem valueBelow_eq_or (limit : Nat) {base : Nat} (hb : 0 < base) (digits : List Char) :
    valueBelow limit base digits = value base digits ∨
      limit ≤ valueBelow limit base digits ∧ limit ≤ value base digits :=
  foldl_eq_or limit hb digits 0

/-- Which character is meant depends on the number as a whole. -/
theorem char?_eq {base : Nat} (hb : 0 < base) (digits : List Char) :
    char? base digits = if digits.isEmpty then none else scalar? (value base digits) := by
  unfold char?
  rcases valueBelow_eq_or 0x110000 hb digits with h | ⟨h, h'⟩
  · rw [h]
  · have none_of_le {n : Nat} (hn : 0x110000 ≤ n) : scalar? n = none := by
      unfold scalar?
      rw [if_neg]
      simp only [Bool.or_eq_true, Bool.and_eq_true, decide_eq_true_eq]
      omega
    rw [none_of_le h, none_of_le h']

/-- The digits at the start of `cs`. -/
def leading (base : Nat) (cs : List Char) : List Char :=
  cs.takeWhile (isDigit base)

end MarkupFilter.Numeral
