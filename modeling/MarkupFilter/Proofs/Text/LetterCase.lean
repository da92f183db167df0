import MarkupFilter.Text.AsciiCase
import MarkupFilter.Text.IndexedText

/-!
# Texts up to letter case

Two texts that differ only in the case of ASCII letters have as many characters and, since all
letters take one byte, as many bytes.

## Main definitions

* `AsciiCase.capitals` — the letters that have a small form.
* `AsciiCase.hasNoCase` — characters that are written in one way only.
* `IndexedText.Recased` — a text with some of its letters in another case.

## Main results

* `AsciiCase.lower_append`, `AsciiCase.lower_join`, `AsciiCase.lower_lower` — lowered texts.
* `AsciiCase.isPrefixOf_iff` — a row of characters without case starts both texts or none.
* `AsciiCase.mem_of_lower_eq`, `AsciiCase.getLast?_of_lower_eq` — such characters stay in place.
* `Utf8.size_eq_of_recased` — letter case does not change the number of bytes.
-/

set_option autoImplicit false

namespace MarkupFilter

namespace AsciiCase

/-! ## Characters -/

/-- The capital letters. -/
def capitals : List Char :=
  ['A', 'B', 'C', 'D', 'E', 'F', 'G', 'H', 'I', 'J', 'K', 'L', 'M', 'N', 'O', 'P', 'Q', 'R', 'S',
    'T', 'U', 'V', 'W', 'X', 'Y', 'Z']

/-- A character is a capital letter, or lowering leaves it as it is. -/
theorem mem_capitals_or (c : Char) : c ∈ capitals ∨ c.toLower = c := by
  by_cases h : 65 ≤ c.toNat ∧ c.toNat ≤ 90
  · refine .inl ?_
    have hall : ∀ n < 26, Char.ofNat (65 + n) ∈ capitals := by decide
    have := hall (c.toNat - 65) (by omega)
    rwa [Nat.add_sub_cancel' h.1, Char.ofNat_toNat] at this
  · refine .inr ?_
    unfold Char.toLower
    rw [dif_neg]
    rintro ⟨h₁, h₂⟩
    exact h ⟨h₁, h₂⟩

@[simp] theorem toLower_toLower (c : Char) : c.toLower.toLower = c.toLower := by
  rcases mem_capitals_or c with h | h
  · have hall : ∀ c ∈ capitals, c.toLower.toLower = c.toLower := by decide
    exact hall c h
  · rw [h, h]

/-- A character that no other has as its other case. -/
def hasNoCase (c : Char) : Bool :=
  capitals.all fun u => u != c && u.toLower != c

theorem eq_of_hasNoCase {c d : Char} (hc : hasNoCase c = true) (h : d.toLower = c.toLower) :
    d = c := by
  simp only [hasNoCase, List.all_eq_true, Bool.and_eq_true, bne_iff_ne] at hc
  have hlow : c.toLower = c :=
    (mem_capitals_or c).resolve_left fun hmem => (hc c hmem).1 rfl
  rw [hlow] at h
  rcases mem_capitals_or d with hd | hd
  · exact absurd h (hc d hd).2
  · exact hd.symm.trans h

/-- A property of characters that capital letters share with their small forms does not depend on
letter case. -/
theorem congr_of_capitals {p : Char → Bool} (hp : ∀ u ∈ capitals, p u = p u.toLower) {c d : Char}
    (h : c.toLower = d.toLower) : p c = p d := by
  have hlow : ∀ c, p c = p c.toLower := fun c => by
    rcases mem_capitals_or c with hc | hc
    · exact hp c hc
    · rw [hc]
  rw [hlow c, hlow d, h]

/-! ## Texts -/

@[simp] theorem lower_lower (s : String) : lower (lower s) = lower s := by
  rw [lower, toList_lower, List.map_map, lower]
  exact congrArg String.ofList (List.map_congr_left fun c _ => toLower_toLower c)

@[simp] theorem lower_empty : lower "" = "" := rfl

@[simp] theorem lower_append (s t : String) : lower (s ++ t) = lower s ++ lower t := by
  simp [lower]

theorem lower_join (texts : List String) :
    lower (String.join texts) = String.join (texts.map lower) := by
  induction texts with
  | nil => rfl
  | cons t ts ih => simp [ih]

/-- Characters without case start a text or not, whatever the case of its letters. -/
theorem isPrefixOf_iff {cs : List Char} (hcs : cs.all hasNoCase = true) {as bs : List Char}
    (h : as.map Char.toLower = bs.map Char.toLower) : cs.isPrefixOf as = cs.isPrefixOf bs := by
  induction cs generalizing as bs with
  | nil => rw [List.isPrefixOf_nil_left, List.isPrefixOf_nil_left]
  | cons c cs ih =>
    simp only [List.all_cons, Bool.and_eq_true] at hcs
    match as, bs, h with
    | [], [], _ => rfl
    | a :: as, b :: bs, h =>
      rw [List.map_cons, List.map_cons, List.cons.injEq] at h
      have hfirst : (c == a) = (c == b) := by
        rw [Bool.eq_iff_iff, beq_iff_eq, beq_iff_eq]
        constructor
        · rintro rfl
          exact (eq_of_hasNoCase hcs.1 h.1.symm).symm
        · rintro rfl
          exact (eq_of_hasNoCase hcs.1 h.1).symm
      rw [List.isPrefixOf_cons_cons, List.isPrefixOf_cons_cons, hfirst, ih hcs.2 h.2]

/-- A character without case stands in a text or not, whatever the case of its letters. -/
theorem mem_of_lower_eq {c : Char} (hc : hasNoCase c = true) {s t : String}
    (h : lower s = lower t) (hmem : c ∈ s.toList) : c ∈ t.toList := by
  have hlower : c.toLower ∈ t.toList.map Char.toLower := by
    rw [← toList_lower, ← h, toList_lower]
    exact List.mem_map_of_mem hmem
  obtain ⟨d, hd, heq⟩ := List.mem_map.1 hlower
  rwa [← eq_of_hasNoCase hc heq]

/-- A text ends in a character without case or not, whatever the case of its letters. -/
theorem getLast?_of_lower_eq {c : Char} (hc : hasNoCase c = true) {s t : String}
    (h : lower s = lower t) (hlast : s.toList.getLast? = some c) :
    t.toList.getLast? = some c := by
  have hlower : (t.toList.map Char.toLower).getLast? = some c.toLower := by
    rw [← toList_lower, ← h, toList_lower, List.getLast?_map, hlast, Option.map_some]
  rw [List.getLast?_map] at hlower
  obtain ⟨d, hd, heq⟩ := Option.map_eq_some_iff.1 hlower
  rw [hd, eq_of_hasNoCase hc heq]

end AsciiCase

/-! ## Sizes -/

theorem Utf8.utf8Size_toLower (c : Char) : c.toLower.utf8Size = c.utf8Size := by
  rcases AsciiCase.mem_capitals_or c with h | h
  · have hall : ∀ c ∈ AsciiCase.capitals, c.toLower.utf8Size = c.utf8Size := by decide
    exact hall c h
  · rw [h]

theorem Utf8.size_map_toLower (cs : List Char) : size (cs.map Char.toLower) = size cs := by
  induction cs with
  | nil => rfl
  | cons c cs ih => rw [List.map_cons, size_cons, size_cons, utf8Size_toLower, ih]

/-! ## Places -/

namespace IndexedText

/-- The text `t` is `s` with some letters in another case. -/
def Recased (s t : IndexedText) : Prop :=
  t.chars.toList.map Char.toLower = s.chars.toList.map Char.toLower

theorem Recased.size_eq {s t : IndexedText} (h : s.Recased t) : t.size = s.size := by
  have := congrArg List.length h
  rwa [List.length_map, List.length_map, Array.length_toList, Array.length_toList] at this

/-- The number of bytes before a place does not depend on letter case. -/
theorem Recased.offset_eq {s t : IndexedText} (h : s.Recased t) (i : Nat) :
    t.offset i = s.offset i := by
  rw [IndexedText.offset_eq, IndexedText.offset_eq, ← Utf8.size_map_toLower,
    ← Utf8.size_map_toLower (s.chars.toList.take i), List.map_take, List.map_take, h]

end IndexedText

end MarkupFilter
