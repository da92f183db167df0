import Mathlib.Algebra.Group.Nat.Defs
import MarkupFilter.Pattern.Search
import MarkupFilter.Proofs.Pattern.Letters

/-!
# Words on tracks

The words of a track lie side by side, so that one number can hold the marks of all of them: a mark
moves on within its word, and it never comes from the word before. Therefore a word that the text
spells out is followed by a mark from its first position to its last.

## Main definitions

* `SetWord.Spells` — a word of sets is spelled out by code points.
* `Track.Layout.Lays` — where a word lies in a layout.
* `Track.moved` — the marks after one more character.

## Main results

* `Bits.testBit_atOffsets_mul` — bits are put at several offsets by one multiplication.
* `Track.exists_lays` — all words of a track lie on it.
* `Track.testBit_endedCopies_of_spells` — the end of a word that is spelled out is found.
-/

set_option autoImplicit false

namespace MarkupFilter.Pattern

/-! ## Bits -/

namespace Bits

@[simp] theorem testBit_ones (n x : Nat) : (ones n).testBit x = decide (x < n) :=
  Nat.testBit_two_pow_sub_one n x

theorem ones_lt (n : Nat) : ones n < 2 ^ n :=
  Nat.sub_lt (Nat.two_pow_pos n) Nat.one_pos

/-- A number below a power of two has no bit from there on. -/
theorem lt_of_testBit {w bits b : Nat} (hbits : bits < 2 ^ w) (hb : bits.testBit b = true) :
    b < w := by
  refine Nat.lt_of_not_le fun hle => ?_
  rw [Nat.testBit_lt_two_pow (Nat.lt_of_lt_of_le hbits (Nat.pow_le_pow_right (by decide) hle))] at hb
  cases hb

theorem Piece.shiftLeft_join (a b : Piece) :
    (a.join b).bits <<< (a.join b).offset = a.bits <<< a.offset ||| b.bits <<< b.offset := by
  unfold join
  split
  · next hle =>
    rw [Nat.shiftLeft_or_distrib, ← Nat.shiftLeft_add, Nat.sub_add_cancel hle]
  · next hlt =>
    rw [Nat.shiftLeft_or_distrib, ← Nat.shiftLeft_add,
      Nat.sub_add_cancel (Nat.le_of_not_le hlt), Nat.or_comm]

/-- The bits that stand at some offsets. -/
theorem testBit_atOffsets (bits : Nat) (offsets : List Nat) (x : Nat) :
    (atOffsets bits offsets).testBit x = true ↔
      ∃ offset ∈ offsets, (bits <<< offset).testBit x = true := by
  have hcombined : (atOffsets bits offsets).testBit x = true ↔
      ∃ piece ∈ offsets.map fun offset => (⟨offset, bits⟩ : Piece),
        (piece.bits <<< piece.offset).testBit x = true :=
    (Halving.combine_spec (P := fun _ => True)
      (Q := fun piece : Piece => (piece.bits <<< piece.offset).testBit x = true)
      (fun a b _ _ => ⟨trivial, by rw [Piece.shiftLeft_join, Nat.testBit_or, Bool.or_eq_true]⟩)
      ⟨trivial, by simp⟩ (fun _ _ => trivial)).2
  refine hcombined.trans ⟨?_, ?_⟩
  · rintro ⟨piece, hpiece, hbit⟩
    obtain ⟨offset, hmem, rfl⟩ := List.mem_map.1 hpiece
    exact ⟨offset, hmem, hbit⟩
  · rintro ⟨offset, hmem, hbit⟩
    exact ⟨_, List.mem_map_of_mem hmem, hbit⟩

theorem atOffsets_cons (bits offset : Nat) (offsets : List Nat) :
    atOffsets bits (offset :: offsets) = bits <<< offset ||| atOffsets bits offsets := by
  refine Nat.eq_of_testBit_eq fun x => Bool.eq_iff_iff.2 ?_
  rw [Nat.testBit_or, Bool.or_eq_true, testBit_atOffsets, testBit_atOffsets]
  simp only [List.mem_cons, exists_eq_or_imp]

/-- Offsets that leave room for `w` bits, the highest first. -/
def Spaced (w : Nat) (offsets : List Nat) : Prop :=
  offsets.Pairwise fun high low => low + w ≤ high

/-- A single bit at each of some lower offsets is less than the next one. -/
theorem atOffsets_one_lt {w offset : Nat} (hw : 0 < w) {offsets : List Nat}
    (hlow : ∀ low ∈ offsets, low + w ≤ offset) : atOffsets 1 offsets < 2 ^ offset := by
  refine Nat.lt_pow_two_of_testBit _ fun x hx => Bool.eq_false_iff.2 fun hbit => ?_
  obtain ⟨low, hmem, hlow'⟩ := (testBit_atOffsets 1 offsets x).1 hbit
  rw [Nat.testBit_shiftLeft, Bool.and_eq_true, decide_eq_true_eq, Nat.testBit_one_eq_true_iff_self_eq_zero]
    at hlow'
  have := hlow low hmem
  omega

/-- A product with bits at lower offsets does not reach the next one. -/
theorem atOffsets_one_mul {w : Nat} (hw : 0 < w) {enter : Nat} (henter : enter < 2 ^ w)
    {offset : Nat} {offsets : List Nat} (hspaced : Spaced w (offset :: offsets)) :
    atOffsets 1 offsets * enter < 2 ^ offset ∧
      atOffsets 1 (offset :: offsets) * enter =
        2 ^ offset * enter + atOffsets 1 offsets * enter := by
  induction offsets generalizing offset with
  | nil =>
    have hnil : atOffsets 1 [] = 0 := by
      refine Nat.eq_of_testBit_eq fun x => ?_
      rw [Nat.zero_testBit, Bool.eq_false_iff, ne_eq, testBit_atOffsets]
      simp
    rw [atOffsets_cons, hnil]
    exact ⟨by simpa only [Nat.zero_mul] using Nat.two_pow_pos offset, by simp [Nat.shiftLeft_eq]⟩
  | cons low offsets ih =>
    obtain ⟨hlow, hrest⟩ := List.pairwise_cons.1 hspaced
    obtain ⟨hlt, hproduct⟩ := ih hrest
    refine ⟨?_, ?_⟩
    · calc atOffsets 1 (low :: offsets) * enter
          = 2 ^ low * enter + atOffsets 1 offsets * enter := hproduct
        _ < 2 ^ low * enter + 2 ^ low := Nat.add_lt_add_left hlt _
        _ = 2 ^ low * (enter + 1) := by rw [Nat.mul_add, Nat.mul_one]
        _ ≤ 2 ^ low * 2 ^ w := Nat.mul_le_mul_left _ henter
        _ = 2 ^ (low + w) := (Nat.pow_add 2 low w).symm
        _ ≤ 2 ^ offset := Nat.pow_le_pow_right (by decide) (hlow low (List.mem_cons_self ..))
    · have hadd : 2 ^ offset ||| atOffsets 1 (low :: offsets) =
          2 ^ offset + atOffsets 1 (low :: offsets) := by
        have := Nat.two_pow_add_eq_or_of_lt (atOffsets_one_lt hw hlow) 1
        rw [Nat.mul_one] at this
        exact this.symm
      rw [atOffsets_cons, Nat.one_shiftLeft, hadd, Nat.add_mul]

/-- **Bits are put at several offsets by one multiplication**, since there is room for them. -/
theorem testBit_atOffsets_mul {w enter offset b : Nat} (henter : enter < 2 ^ w)
    {offsets : List Nat} (hspaced : Spaced w offsets) (hoffset : offset ∈ offsets)
    (hb : enter.testBit b = true) : (atOffsets 1 offsets * enter).testBit (offset + b) = true := by
  have hbw : b < w := lt_of_testBit henter hb
  have hw : 0 < w := Nat.zero_lt_of_lt hbw
  induction offsets with
  | nil => cases hoffset
  | cons high offsets ih =>
    obtain ⟨hhigh, hrest⟩ := List.pairwise_cons.1 hspaced
    obtain ⟨hlt, hproduct⟩ := atOffsets_one_mul hw henter hspaced
    rw [hproduct, Nat.testBit_two_pow_mul_add _ hlt]
    rcases List.mem_cons.1 hoffset with rfl | hmem
    · rw [if_neg (Nat.not_lt.2 (Nat.le_add_right ..)), Nat.add_sub_cancel_left]
      exact hb
    · have := hhigh offset hmem
      rw [if_pos (by omega)]
      exact ih hrest hmem

end Bits

/-! ## Words -/

/-- The word is spelled out by the code points from place `i` to place `j`. -/
def SetWord.Spells (code : Nat → Nat) : SetWord → Nat → Nat → Prop
  | [], i, j => i = j
  | s :: word, i, j => s.containsCode (code i) = true ∧ Spells code word (i + 1) j

namespace SetWord

variable {code : Nat → Nat}

theorem Spells.append {word next : SetWord} {i j k : Nat} (hword : Spells code word i j)
    (hnext : Spells code next j k) : Spells code (word ++ next) i k := by
  induction word generalizing i with
  | nil =>
    obtain rfl : i = j := hword
    exact hnext
  | cons s word ih => exact ⟨hword.1, ih hword.2⟩

theorem Spells.eq_add {word : SetWord} {i j : Nat} (h : Spells code word i j) :
    j = i + word.length := by
  induction word generalizing i with
  | nil => exact h.symm
  | cons s word ih =>
    rw [ih h.2, List.length_cons]
    omega

theorem Spells.containsCode {word : SetWord} {i j : Nat} (h : Spells code word i j) (k : Nat)
    (hk : k < word.length) : word[k].containsCode (code (i + k)) = true := by
  induction word generalizing i k with
  | nil => exact absurd hk (Nat.not_lt_zero k)
  | cons s word ih =>
    cases k with
    | zero => exact h.1
    | succ k =>
      rw [show i + (k + 1) = i + 1 + k by omega]
      exact ih h.2 k (Nat.lt_of_succ_lt_succ hk)

end SetWord

namespace Track

/-! ## Layouts -/

/-- The set `s` has a position at the offset. -/
def HasSet (sets : List (CharClass × List Nat)) (s : CharClass) (offset : Nat) : Prop :=
  ∃ offsets, (s, offsets) ∈ sets ∧ offset ∈ offsets

theorem hasSet_insert (s : CharClass) (offset : Nat) (sets : List (CharClass × List Nat)) :
    HasSet (insert s offset sets) s offset ∧
      ∀ t other, HasSet sets t other → HasSet (insert s offset sets) t other := by
  fun_induction insert s offset sets with
  | case1 => exact ⟨⟨[offset], by simp, by simp⟩, fun t other ⟨offsets, hmem, _⟩ => nomatch hmem⟩
  | case2 offsets rest =>
    refine ⟨⟨offset :: offsets, by simp, by simp⟩, fun u other ⟨found, hmem, hother⟩ => ?_⟩
    rcases List.mem_cons.1 hmem with hhead | htail
    · cases hhead
      exact ⟨offset :: offsets, by simp, List.mem_cons_of_mem _ hother⟩
    · exact ⟨found, List.mem_cons_of_mem _ htail, hother⟩
  | case3 t offsets rest hne ih =>
    obtain ⟨⟨found, hmem, hfound⟩, hkeep⟩ := ih
    refine ⟨⟨found, List.mem_cons_of_mem _ hmem, hfound⟩, fun u other ⟨offsets', hmem', hother⟩ => ?_⟩
    rcases List.mem_cons.1 hmem' with hhead | htail
    · cases hhead
      exact ⟨offsets, by simp, hother⟩
    · obtain ⟨found', hmem'', hother'⟩ := hkeep u other ⟨offsets', htail, hother⟩
      exact ⟨found', List.mem_cons_of_mem _ hmem'', hother'⟩

theorem place_snd (w offset : Nat) (sets : List (CharClass × List Nat)) (word : SetWord) :
    (place w offset sets word).2 = offset + word.length * w := by
  fun_induction place w offset sets word with
  | case1 => simp
  | case2 offset sets s word ih =>
    rw [ih, List.length_cons, Nat.succ_mul]
    omega

theorem hasSet_place_of_hasSet {w offset : Nat} {sets : List (CharClass × List Nat)}
    {word : SetWord} {s : CharClass} {other : Nat} (h : HasSet sets s other) :
    HasSet (place w offset sets word).1 s other := by
  fun_induction place w offset sets word with
  | case1 => exact h
  | case2 offset sets t word ih => exact ih ((hasSet_insert t offset sets).2 s other h)

/-- The sets of a word have the positions from its offset on. -/
theorem hasSet_place {w offset : Nat} {sets : List (CharClass × List Nat)} {word : SetWord} {i : Nat}
    (hi : i < word.length) : HasSet (place w offset sets word).1 word[i] (offset + i * w) := by
  induction word generalizing offset sets i with
  | nil => exact absurd hi (Nat.not_lt_zero i)
  | cons s word ih =>
    rw [place]
    cases i with
    | zero =>
      rw [Nat.zero_mul, Nat.add_zero]
      exact hasSet_place_of_hasSet (hasSet_insert s offset sets).1
    | succ i =>
      have hi' : i < word.length := Nat.lt_of_succ_lt_succ hi
      have hplaced : HasSet (place w (offset + w) (insert s offset sets) word).1 word[i]
          (offset + w + i * w) := ih hi'
      rw [show offset + (i + 1) * w = offset + w + i * w by rw [Nat.succ_mul]; omega]
      exact hplaced

namespace Layout

/-- The word lies in the layout from an offset on, and no other word starts inside of it. -/
structure Lays (w : Nat) (l : Layout) (word : SetWord) (offset : Nat) : Prop where
  start : offset ∈ l.starts
  end_ : offset + (word.length - 1) * w ∈ l.ends
  sets : ∀ i (hi : i < word.length), HasSet l.sets word[i] (offset + i * w)
  apart : ∀ start ∈ l.starts, start ≤ offset ∨ offset + word.length * w ≤ start
  within : offset + word.length * w ≤ l.size

/-- The words of a layout have room at their starts. -/
structure HasRoom (w : Nat) (l : Layout) : Prop where
  spaced : Bits.Spaced w l.starts
  within : ∀ start ∈ l.starts, start + w ≤ l.size

theorem size_add (w : Nat) (l : Layout) (word : SetWord) :
    (l.add w word).size = l.size + word.length * w :=
  place_snd w l.size l.sets word

theorem HasRoom.add {w : Nat} {l : Layout} (h : l.HasRoom w) {word : SetWord} (hword : word ≠ []) :
    (l.add w word).HasRoom w := by
  have hw : w ≤ word.length * w := Nat.le_mul_of_pos_left w (List.length_pos_iff.2 hword)
  refine ⟨List.pairwise_cons.2 ⟨h.within, h.spaced⟩, fun start hstart => ?_⟩
  rw [size_add]
  rcases List.mem_cons.1 hstart with rfl | hmem
  · omega
  · have := h.within start hmem
    omega

theorem Lays.add {w : Nat} {l : Layout} {word : SetWord} {offset : Nat} (h : l.Lays w word offset)
    (next : SetWord) : (l.add w next).Lays w word offset where
  start := List.mem_cons_of_mem _ h.start
  end_ := List.mem_cons_of_mem _ h.end_
  sets i hi := hasSet_place_of_hasSet (h.sets i hi)
  apart start hstart := by
    rcases List.mem_cons.1 hstart with rfl | hmem
    · exact .inr h.within
    · exact h.apart start hmem
  within := by
    rw [size_add]
    exact Nat.le_trans h.within (Nat.le_add_right ..)

/-- A word that is added lies at the end. -/
theorem HasRoom.lays_add {w : Nat} {l : Layout} (h : l.HasRoom w) {word : SetWord}
    (hword : word ≠ []) : (l.add w word).Lays w word l.size where
  start := List.mem_cons_self ..
  end_ := by
    have hpos := List.length_pos_iff.2 hword
    have hlast : (l.add w word).size - w = l.size + (word.length - 1) * w := by
      rw [size_add, Nat.sub_mul, Nat.one_mul]
      exact Nat.add_sub_assoc (Nat.le_mul_of_pos_left w hpos) _
    rw [← hlast]
    exact List.mem_cons_self ..
  sets i hi := hasSet_place hi
  apart start hstart := by
    rcases List.mem_cons.1 hstart with rfl | hmem
    · exact .inl (Nat.le_refl _)
    · exact .inl (Nat.le_trans (Nat.le_add_right ..) (h.within start hmem))
  within := Nat.le_of_eq (size_add w l word).symm

/-- The words that are added lie in the layout, beside those that are there. -/
theorem HasRoom.foldl {w : Nat} {words : List SetWord} (hwords : ∀ word ∈ words, word ≠ [])
    {l : Layout} (h : l.HasRoom w) :
    (words.foldl (Layout.add w) l).HasRoom w ∧
      (∀ word offset, l.Lays w word offset → (words.foldl (Layout.add w) l).Lays w word offset) ∧
      ∀ word ∈ words, ∃ offset, (words.foldl (Layout.add w) l).Lays w word offset := by
  induction words generalizing l with
  | nil => exact ⟨h, fun _ _ hlays => hlays, fun _ hmem => nomatch hmem⟩
  | cons first words ih =>
    have hfirst : first ≠ [] := hwords first (List.mem_cons_self ..)
    obtain ⟨hroom, hkeep, hall⟩ := ih (fun word hmem => hwords word (List.mem_cons_of_mem _ hmem))
      (h.add hfirst)
    refine ⟨hroom, fun word offset hlays => hkeep word offset (hlays.add first), fun word hmem => ?_⟩
    rcases List.mem_cons.1 hmem with rfl | hmem
    · exact ⟨l.size, hkeep word l.size (h.lays_add hfirst)⟩
    · exact hall word hmem

end Layout

end Track

/-! ## Marks -/

/-- The marks on a track. -/
def Marks.onTrack : Marks → Nat
  | .track _ marks => marks
  | _ => 0

namespace Track

/-- The marks after the code point `n`. -/
def moved (t : Track) (n enter marks : Nat) : Nat :=
  ((marks <<< t.width &&& t.inner) ||| t.starts * enter) &&& t.table.mask n

/-- Steps that are left out do not matter. -/
theorem shift_eq (t : Track) (n enter marks : Nat) :
    t.shift n enter marks = if t.moved n enter marks = 0 then .none
      else .track (t.endedCopies (t.moved n enter marks)) (t.moved n enter marks) := by
  have hmoved : (if marks = 0 then 0 else marks <<< t.width &&& t.inner) =
      marks <<< t.width &&& t.inner := by
    split
    · next hzero => rw [hzero, Nat.zero_shiftLeft, Nat.zero_and]
    · rfl
  have hentered : ∀ entered : Nat, (if entered = 0 then 0 else entered &&& t.table.mask n) =
      entered &&& t.table.mask n := by
    intro entered
    split
    · next hzero => rw [hzero, Nat.zero_and]
    · rfl
  unfold shift
  simp only [hmoved, hentered]
  split
  · next hzero =>
    simp only [Bool.and_eq_true, decide_eq_true_eq] at hzero
    rw [moved, hzero.1, hzero.2]
    simp
  · rfl

theorem endedCopies_zero (t : Track) : t.endedCopies 0 = 0 := by
  rw [endedCopies, if_pos (Nat.zero_and _)]

/-- The marks after a step are those that have moved. -/
theorem onTrack_shift (t : Track) (n enter marks : Nat) :
    (t.shift n enter marks).onTrack = t.moved n enter marks := by
  rw [shift_eq]
  split
  · next hzero => exact hzero.symm
  · rfl

/-- The copies that have ended after a step are told by the marks. -/
theorem ended_shift (t : Track) (n enter marks : Nat) :
    (t.shift n enter marks).ended = t.endedCopies (t.shift n enter marks).onTrack := by
  rw [shift_eq]
  split
  · exact t.endedCopies_zero.symm
  · rfl

theorem endedCopies_lt (t : Track) (marks : Nat) : t.endedCopies marks < 2 ^ t.width := by
  unfold endedCopies
  split
  · exact Nat.two_pow_pos _
  · split
    · next hone =>
      rw [hone]
      decide
    · exact Nat.lt_of_le_of_lt Nat.and_le_right (Bits.ones_lt _)

theorem testBit_foldl_or (marks : Nat) (offsets : List Nat) (bits b : Nat) :
    (offsets.foldl (fun bits offset => bits ||| marks >>> offset) bits).testBit b = true ↔
      bits.testBit b = true ∨ ∃ offset ∈ offsets, marks.testBit (offset + b) = true := by
  induction offsets generalizing bits with
  | nil => simp
  | cons offset offsets ih =>
    rw [List.foldl_cons, ih, Nat.testBit_or, Nat.testBit_shiftRight, Bool.or_eq_true, or_assoc]
    simp only [List.mem_cons, exists_eq_or_imp]

section

variable {w : Nat} {words : List SetWord} {word : SetWord} {offset : Nat}

/-- The layout of some words. -/
def layout (w : Nat) (words : List SetWord) : Layout :=
  words.foldl (Layout.add w) {}

/-- **All words of a track lie on it.** -/
theorem exists_lays (hwords : ∀ word ∈ words, word ≠ []) :
    (layout w words).HasRoom w ∧ ∀ word ∈ words, ∃ offset, (layout w words).Lays w word offset := by
  have hempty : ({} : Layout).HasRoom w := ⟨.nil, fun _ hmem => nomatch hmem⟩
  obtain ⟨hroom, -, hall⟩ := hempty.foldl hwords
  exact ⟨hroom, hall⟩

theorem testBit_block {b : Nat} (hb : b < w) {offsets : List Nat} (hoffset : offset ∈ offsets) :
    (Bits.atOffsets (Bits.ones w) offsets).testBit (offset + b) = true := by
  refine (Bits.testBit_atOffsets ..).2 ⟨offset, hoffset, ?_⟩
  rw [Nat.testBit_shiftLeft, Nat.add_sub_cancel_left, Bits.testBit_ones]
  simp [hb]

/-- The mask of a character holds the positions whose sets hold the character. -/
theorem testBit_mask (hlays : (layout w words).Lays w word offset) {i n b : Nat}
    (hi : i < word.length) (hn : word[i].containsCode n = true) (hb : b < w) :
    ((ofWords w words).table.mask n).testBit (offset + i * w + b) = true := by
  obtain ⟨offsets, hmem, hoffset⟩ := hlays.sets i hi
  exact (LetterTable.testBit_mask_ofSets ..).2
    ⟨_, List.mem_map_of_mem hmem, hn, testBit_block hb hoffset⟩

/-- A word is entered at its first position. -/
theorem testBit_moved_start (hroom : (layout w words).HasRoom w)
    (hlays : (layout w words).Lays w word offset) {n enter marks b : Nat} (hpos : 0 < word.length)
    (hn : word[0].containsCode n = true) (henter : enter < 2 ^ w) (hb : enter.testBit b = true) :
    ((ofWords w words).moved n enter marks).testBit (offset + b) = true := by
  have hstart : ((ofWords w words).starts * enter).testBit (offset + b) = true :=
    Bits.testBit_atOffsets_mul henter hroom.spaced hlays.start hb
  have hmask := testBit_mask hlays hpos hn (Bits.lt_of_testBit henter hb)
  rw [Nat.zero_mul, Nat.add_zero] at hmask
  rw [moved, Nat.testBit_and, Nat.testBit_or, hstart, hmask, Bool.or_true, Bool.and_true]

/-- A mark goes on to the next position of its word. -/
theorem testBit_moved_next (hlays : (layout w words).Lays w word offset) {i n enter marks b : Nat}
    (hi : i + 1 < word.length) (hn : word[i + 1].containsCode n = true) (hb : b < w)
    (hmark : marks.testBit (offset + i * w + b) = true) :
    ((ofWords w words).moved n enter marks).testBit (offset + (i + 1) * w + b) = true := by
  have hplace : offset + (i + 1) * w + b = offset + i * w + b + w := by
    rw [Nat.succ_mul]
    omega
  have hend : (i + 2) * w ≤ word.length * w := Nat.mul_le_mul_right w hi
  rw [Nat.succ_mul, Nat.succ_mul] at hend
  have hshifted : (marks <<< w).testBit (offset + (i + 1) * w + b) = true := by
    rw [hplace, Nat.testBit_shiftLeft, Nat.add_sub_cancel, hmark]
    simp
  have hinside : (Bits.ones (layout w words).size).testBit (offset + (i + 1) * w + b) = true := by
    have := hlays.within
    rw [Bits.testBit_ones, decide_eq_true_eq, hplace]
    omega
  -- the position is in no block at the start of a word: these end before it or start after the word
  have hnostart : (Bits.atOffsets (Bits.ones w) (layout w words).starts).testBit
      (offset + (i + 1) * w + b) = false := by
    refine Bool.eq_false_iff.2 fun hbit => ?_
    obtain ⟨start, hmem, hblock⟩ := (Bits.testBit_atOffsets ..).1 hbit
    rw [Nat.testBit_shiftLeft, Bits.testBit_ones, Bool.and_eq_true, decide_eq_true_eq,
      decide_eq_true_eq, hplace] at hblock
    rcases hlays.apart start hmem with hbefore | hafter <;> omega
  have hinner : (ofWords w words).inner.testBit (offset + (i + 1) * w + b) = true := by
    show (Bits.ones (layout w words).size ^^^
      Bits.atOffsets (Bits.ones w) (layout w words).starts).testBit _ = true
    rw [Nat.testBit_xor, hinside, hnostart]
    rfl
  have hmask := testBit_mask hlays hi hn hb
  rw [moved, Nat.testBit_and, Nat.testBit_or, Nat.testBit_and, hinner, hmask]
  exact (by rw [show (marks <<< (ofWords w words).width).testBit _ = true from hshifted]; rfl)

/-- A mark at the last position of a word ends it. -/
theorem testBit_endedCopies (hlays : (layout w words).Lays w word offset) {marks b : Nat}
    (hb : b < w) (hmark : marks.testBit (offset + (word.length - 1) * w + b) = true) :
    ((ofWords w words).endedCopies marks).testBit b = true := by
  have hends : (ofWords w words).ends.testBit (offset + (word.length - 1) * w + b) = true :=
    testBit_block hb hlays.end_
  have hsome : marks &&& (ofWords w words).ends ≠ 0 := by
    intro hzero
    have hbit : (marks &&& (ofWords w words).ends).testBit
        (offset + (word.length - 1) * w + b) = true := by
      rw [Nat.testBit_and, hmark, hends]
      rfl
    rw [hzero, Nat.zero_testBit] at hbit
    cases hbit
  rw [endedCopies, if_neg hsome]
  split
  · next hone =>
    obtain rfl : w = 1 := hone
    obtain rfl : b = 0 := Nat.lt_one_iff.1 hb
    rfl
  · have hfold := (testBit_foldl_or marks (ofWords w words).endOffsets 0 b).2
      (.inr ⟨_, hlays.end_, hmark⟩)
    rw [Nat.testBit_and, hfold, Bits.testBit_ones]
    exact decide_eq_true hb

/-- The marks while a word is spelled out: the induction is on the number of characters read, and
the mark is at the position of the last one. -/
theorem testBit_marks (hroom : (layout w words).HasRoom w)
    (hlays : (layout w words).Lays w word offset) {code enter marks : Nat → Nat}
    (hmarks : ∀ i, marks (i + 1) = (ofWords w words).moved (code i) (enter i) (marks i))
    {i b : Nat} (henter : enter i < 2 ^ w) (hb : (enter i).testBit b = true) (read : Nat)
    (hread : read < word.length)
    (hspelled : ∀ k (hk : k < word.length), word[k].containsCode (code (i + k)) = true) :
    (marks (i + read + 1)).testBit (offset + read * w + b) = true := by
  induction read with
  | zero =>
    rw [Nat.add_zero, Nat.zero_mul, Nat.add_zero, hmarks]
    exact testBit_moved_start hroom hlays hread (hspelled 0 hread) henter hb
  | succ read ih =>
    rw [hmarks]
    exact testBit_moved_next hlays hread (hspelled (read + 1) hread)
      (Bits.lt_of_testBit henter hb) (ih (Nat.lt_of_succ_lt hread))

/-- **The end of a word that is spelled out is found**, in every copy in which it was entered. -/
theorem testBit_endedCopies_of_spells (hwords : ∀ word ∈ words, word ≠ []) (hmem : word ∈ words)
    {code enter : Nat → Nat} (marks : Nat → Nat)
    (hmarks : ∀ i, marks (i + 1) = (ofWords w words).moved (code i) (enter i) (marks i))
    {i j b : Nat} (henter : enter i < 2 ^ w) (hb : (enter i).testBit b = true)
    (hspelled : word.Spells code i j) :
    ((ofWords w words).endedCopies (marks j)).testBit b = true := by
  obtain ⟨hroom, hall⟩ := exists_lays (w := w) hwords
  obtain ⟨offset, hlays⟩ := hall word hmem
  have hpos : 0 < word.length := List.length_pos_iff.2 (hwords word hmem)
  have hlast := testBit_marks hroom hlays hmarks henter hb (word.length - 1) (by omega)
    hspelled.containsCode
  rw [hspelled.eq_add, show i + word.length = i + (word.length - 1) + 1 by omega]
  exact testBit_endedCopies hlays (Bits.lt_of_testBit henter hb) hlast

end

end Track

end MarkupFilter.Pattern
