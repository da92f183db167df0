import MarkupFilter.Pattern.Expression

/-!
# Rows of characters with gaps

Patterns often ask for the characters of a word one by one and allow any number of characters of some
kind before each of them.

## Main definitions

* `Expression.spaced` — the expressions for a word with gaps.
* `Expression.IsSpaced` — a word is written with gaps.

## Main results

* `Expression.eq_of_same` — expressions that are built alike are equal.
* `Expression.matches_spaced` — a word with gaps is matched.
-/

set_option autoImplicit false

namespace MarkupFilter.Pattern.Expression

/-! ## Equality -/

mutual

/-- Expressions that are built alike are equal. -/
theorem eq_of_same : ∀ (a b : Expression), same a b = true → a = b
  | .literal _, .literal _, h => by simp_all [same]
  | .chars _, .chars _, h => by simp_all [same]
  | .anchor _, .anchor _, h => by simp_all [same]
  | .group m a, .group n b, h => by
    simp only [same, Bool.and_eq_true, beq_iff_eq] at h
    rw [h.1, eq_of_same a b h.2]
  | .times a m x, .times b n y, h => by
    simp only [same, Bool.and_eq_true, beq_iff_eq] at h
    rw [h.1.1, h.1.2, eq_of_same a b h.2]
  | .concat as, .concat bs, h => by
    rw [same] at h
    rw [eq_of_sameAll as bs h]
  | .either as, .either bs, h => by
    rw [same] at h
    rw [eq_of_sameAll as bs h]

/-- Lists of expressions that are alike one by one are equal. -/
theorem eq_of_sameAll : ∀ (as bs : List Expression), sameAll as bs = true → as = bs
  | [], [], _ => rfl
  | a :: as, b :: bs, h => by
    simp only [sameAll, Bool.and_eq_true] at h
    rw [eq_of_same a b h.1, eq_of_sameAll as bs h.2]

end

/-! ## Words with gaps -/

variable {text : List Char}

theorem drop_add_of_append {i : Nat} (cs : List Char) {rest : List Char} (h : text.drop i = cs ++ rest) :
    text.drop (i + cs.length) = rest := by
  rw [← List.drop_drop, h, List.drop_left]

theorem lt_length_of_drop {i : Nat} {c : Char} {rest : List Char} (h : text.drop i = c :: rest) :
    i < text.length := by
  refine Nat.lt_of_not_le fun hle => ?_
  rw [List.drop_eq_nil_of_le hle] at h
  cases h

/-- One character of a set. -/
theorem matches_chars {s : CharClass} {i : Nat} {c : Char} {rest : List Char}
    (h : text.drop i = c :: rest) (hc : s.contains c = true) :
    Matches text (.chars s) i (i + 1) := by
  refine .chars s i c ?_ hc
  rw [← List.head?_drop, h]
  rfl

/-- Any number of characters of a set. -/
theorem matches_gap {gap : CharClass} {i : Nat} (hi : i ≤ text.length) {cs rest : List Char}
    (h : text.drop i = cs ++ rest) (hcs : ∀ c ∈ cs, gap.contains c = true) :
    Matches text (.times (.chars gap) 0 none) i (i + cs.length) := by
  induction cs generalizing i with
  | nil => exact .times_none _ _ i hi
  | cons c cs ih =>
    have hrest := ih (lt_length_of_drop h) (drop_add_of_append [c] h)
      fun d hd => hcs d (List.mem_cons_of_mem _ hd)
    rw [show i + (c :: cs).length = i + 1 + cs.length by rw [List.length_cons]; omega]
    exact .times_further _ i (i + 1) _ (matches_chars h (hcs c (List.mem_cons_self ..))) hrest

/-- The expressions for a word: one for each of its characters, with a gap before it. -/
def spaced (gap : CharClass) (word : List CharClass) : List Expression :=
  word.flatMap fun s => [.times (.chars gap) 0 none, .chars s]

/-- The word is written with gaps before its characters. -/
def IsSpaced (gap : CharClass) : List CharClass → List Char → Prop
  | [], cs => cs = []
  | s :: word, cs => ∃ before c rest, cs = before ++ c :: rest ∧
      (∀ b ∈ before, gap.contains b = true) ∧ s.contains c = true ∧ IsSpaced gap word rest

/-- **A word with gaps is matched**, if what follows it is. -/
theorem matches_spaced {gap : CharClass} {word : List CharClass} {cs rest : List Char}
    (hcs : IsSpaced gap word cs) {i j : Nat} (hi : i ≤ text.length) (h : text.drop i = cs ++ rest)
    {tail : List Expression} (htail : Matches text (.concat tail) (i + cs.length) j) :
    Matches text (.concat (spaced gap word ++ tail)) i j := by
  induction word generalizing cs i with
  | nil =>
    obtain rfl : cs = [] := hcs
    exact htail
  | cons s word ih =>
    obtain ⟨before, c, after, rfl, hbefore, hc, hafter⟩ := hcs
    rw [List.append_assoc] at h
    have hchar : text.drop (i + before.length) = c :: (after ++ rest) := drop_add_of_append before h
    have hlength : i + (before ++ c :: after).length = i + before.length + 1 + after.length := by
      rw [List.length_append, List.length_cons]
      omega
    rw [hlength] at htail
    have hrest := ih hafter (lt_length_of_drop hchar) (drop_add_of_append [c] hchar) htail
    exact .concat_cons _ _ i _ j (matches_gap hi h hbefore)
      (.concat_cons _ _ _ _ j (matches_chars hchar hc) hrest)

end MarkupFilter.Pattern.Expression
