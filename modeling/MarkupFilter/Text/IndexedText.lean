import MarkupFilter.Text.Utf8

/-!
# Indexed texts

A text in which every character is reached at once, and so is the number of bytes before it. Places
are counted in characters.

## Main definitions

* `IndexedText` — the characters of a text with their byte offsets.
* `IndexedText.offset` — the number of bytes before a place.
* `IndexedText.hasAt` — whether given characters stand at a place.

## Main results

* `IndexedText.offset_eq` — the offset of a place is the size of the characters before it.
* `IndexedText.hasAt_iff` — characters stand at a place when what follows it starts with them.
-/

set_option autoImplicit false

namespace MarkupFilter

/-! ## Offsets -/

/-- The entries `seen`, and then the numbers of bytes before each character of `cs` and after the
last, where `bytes` come before `cs`. -/
def offsetsFrom (seen : Array Nat) (bytes : Nat) : List Char → Array Nat
  | [] => seen.push bytes
  | c :: cs => offsetsFrom (seen.push bytes) (bytes + c.utf8Size) cs

theorem getElem?_offsetsFrom_of_lt (seen : Array Nat) (bytes : Nat) (cs : List Char) (i : Nat)
    (h : i < seen.size) : (offsetsFrom seen bytes cs)[i]? = seen[i]? := by
  induction cs generalizing seen bytes with
  | nil => rw [offsetsFrom, Array.getElem?_push, if_neg (by omega)]
  | cons c cs ih =>
    rw [offsetsFrom, ih _ _ (by rw [Array.size_push]; omega), Array.getElem?_push,
      if_neg (by omega)]

theorem getElem?_offsetsFrom (seen : Array Nat) (bytes : Nat) (cs : List Char) (i : Nat)
    (h : i ≤ cs.length) :
    (offsetsFrom seen bytes cs)[seen.size + i]? = some (bytes + Utf8.size (cs.take i)) := by
  induction cs generalizing seen bytes i with
  | nil =>
    obtain rfl : i = 0 := by simpa using h
    simp [offsetsFrom]
  | cons c cs ih =>
    cases i with
    | zero =>
      rw [offsetsFrom, getElem?_offsetsFrom_of_lt _ _ _ _ (by simp)]
      simp
    | succ i =>
      have := ih (seen.push bytes) (bytes + c.utf8Size) i (by simpa using h)
      rw [Array.size_push] at this
      rw [offsetsFrom, List.take_succ_cons, Utf8.size_cons, ← Nat.add_assoc bytes, ← this]
      congr 1
      omega

/-! ## Texts -/

/-- A text with the number of bytes before each of its characters, and before its end. -/
structure IndexedText where
  chars : Array Char
  offsets : Array Nat
  offsets_spec : offsets = offsetsFrom #[] 0 chars.toList

namespace IndexedText

/-- The text of the characters `cs`. -/
def ofList (cs : List Char) : IndexedText :=
  ⟨cs.toArray, offsetsFrom #[] 0 cs, by simp⟩

/-- The number of characters of the text. -/
def size (t : IndexedText) : Nat :=
  t.chars.size

/-- The number of bytes before the place `i`, or of the whole text if it ends earlier. -/
def offset (t : IndexedText) (i : Nat) : Nat :=
  t.offsets.getD (min i t.size) 0

theorem offset_eq (t : IndexedText) (i : Nat) :
    t.offset i = Utf8.size (t.chars.toList.take i) := by
  have h := getElem?_offsetsFrom #[] 0 t.chars.toList (min i t.size) (Nat.min_le_right _ _)
  rw [← t.offsets_spec, Array.size_empty, Nat.zero_add, Nat.zero_add] at h
  rw [offset, Array.getD_eq_getD_getElem?, h, Option.getD_some, size, ← Array.length_toList,
    ← List.take_eq_take_min]

/-- Whether the characters `cs` stand at the place `i`. -/
def hasAt (t : IndexedText) : List Char → (i : Nat) → Bool
  | [], _ => true
  | c :: cs, i => if h : i < t.chars.size then t.chars[i] == c && t.hasAt cs (i + 1) else false

theorem hasAt_iff (t : IndexedText) (cs : List Char) (i : Nat) :
    t.hasAt cs i = true ↔ cs <+: t.chars.toList.drop i := by
  induction cs generalizing i with
  | nil => simp [hasAt]
  | cons c cs ih =>
    rw [hasAt]
    split
    · next h =>
      rw [List.drop_eq_getElem_cons (by simpa using h), List.cons_prefix_cons, Bool.and_eq_true,
        ih, beq_iff_eq, Array.getElem_toList, eq_comm]
    · next h =>
      rw [List.drop_eq_nil_of_le (by simpa using h)]
      simp

end IndexedText

end MarkupFilter
