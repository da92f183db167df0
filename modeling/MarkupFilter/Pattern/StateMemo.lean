import MarkupFilter.Pattern.Search
import Std.Data.HashMap

/-!
# Remembered steps

In a long text the same few states of a search come up again and again. A memo numbers the states
that have come up and remembers which one follows which, so that a step that was made before costs
one look-up, however large the machine is. A memo never holds anything but true steps; so searching
with one finds the same.

## Main definitions

* `StateMemo` — numbered states and the steps between them.
* `StateMemo.occursFrom` — the search with a memo.
* `Machine.occursIn` — whether a machine matches anywhere in a text; a memo is kept from some way
  into the text on.

## Main results

* `StateMemo.occursFrom_eq`, `Machine.occursIn_eq` — the result is that of the plain search.
-/

set_option autoImplicit false

namespace MarkupFilter.Pattern

/-! ## Comparing states -/

namespace Marks

mutual

/-- Whether two machines have the same marks. -/
def same : Marks → Marks → Bool
  | .none, .none => true
  | .track e k, .track f l => k == l && e == f
  | .parts e ks, .parts f ls => e == f && sameAll ks ls
  | _, _ => false

/-- Whether two lists of marks are the same one by one. -/
def sameAll : List Marks → List Marks → Bool
  | [], [] => true
  | k :: ks, l :: ls => same k l && sameAll ks ls
  | _, _ => false

end

mutual

/-- The same marks are equal. -/
theorem eq_of_same : ∀ (k l : Marks), same k l = true → k = l
  | .none, .none, _ => rfl
  | .track .., .track .., h => by simp_all [same]
  | .parts _ ks, .parts _ ls, h => by
    simp only [same, Bool.and_eq_true, beq_iff_eq] at h
    rw [h.1, eq_of_sameAll ks ls h.2]

/-- Lists of marks that are the same one by one are equal. -/
theorem eq_of_sameAll : ∀ (ks ls : List Marks), sameAll ks ls = true → ks = ls
  | [], [], _ => rfl
  | k :: ks, l :: ls, h => by
    simp only [sameAll, Bool.and_eq_true] at h
    rw [eq_of_same k l h.1, eq_of_sameAll ks ls h.2]

end

/-- A digest of a number of any size. -/
def numberDigest (n : Nat) : UInt64 :=
  hash (n % 0x1FFFFFFFFFFFFFFF)

mutual

/-- A digest of marks, which is the same for the same marks. -/
def digest : Marks → UInt64
  | .none => 1
  | .track _ marks => numberDigest marks
  | .parts _ items => digestAll 3 items

/-- A digest of a list of marks after others. -/
def digestAll (d : UInt64) : List Marks → UInt64
  | [] => d
  | k :: ks => digestAll (mixHash d k.digest) ks

end

mutual

/-- How much room marks take, roughly in words. -/
def weight : Marks → Nat
  | .none => 1
  | .track ended marks => 4 + (Nat.log2 ended + Nat.log2 marks) / 64
  | .parts ended items => weightOfAll (4 + Nat.log2 ended / 64) items

/-- How much room a list of marks takes after others. -/
def weightOfAll (sum : Nat) : List Marks → Nat
  | [] => sum
  | k :: ks => weightOfAll (sum + k.weight + 3) ks

end

end Marks

namespace SearchState

/-- Whether two states are the same. -/
def same (s t : SearchState) : Bool :=
  s.place == t.place && s.marks.same t.marks

/-- The same states are equal. -/
theorem eq_of_same {s t : SearchState} (h : s.same t = true) : s = t := by
  simp only [same, Bool.and_eq_true, beq_iff_eq] at h
  rcases s with ⟨p, k⟩
  rcases t with ⟨q, l⟩
  simp only at h
  rw [h.1, Marks.eq_of_same k l h.2]

/-- A digest of a state, which is the same for the same states. -/
def digest (s : SearchState) : UInt64 :=
  mixHash (hash s.place.index) s.marks.digest

end SearchState

/-! ## Memos -/

/-- What a step depends on: the number of the state, the code point that is read, and the kind of
the neighbour that follows it. -/
structure StepKey where
  state : Nat
  code : Nat
  following : Neighbour
  deriving DecidableEq, Hashable

/-- States of a search, numbered as they came up, and the steps between them that are known. -/
structure StateMemo (m : Machine) where
  states : Array SearchState
  /-- The number of the last state with each digest. -/
  numbers : Std.HashMap UInt64 Nat
  steps : Std.HashMap StepKey Nat
  /-- How much room the states take. -/
  weight : Nat
  sound : ∀ (key : StepKey) (number : Nat), steps[key]? = some number →
    ∃ s, states[key.state]? = some s ∧
      states[number]? = some (m.next s key.code key.following)

namespace StateMemo

variable {m : Machine}

/-- The memo of one state. -/
def ofState (m : Machine) (s : SearchState) : StateMemo m :=
  ⟨#[s], {}, {}, 0, by simp⟩

theorem states_ofState (s : SearchState) : (ofState m s).states[0]? = some s := rfl

/-- The memo with one more state. -/
def push (memo : StateMemo m) (digest : UInt64) (s : SearchState) : StateMemo m :=
  { states := memo.states.push s
    numbers := memo.numbers.insert digest memo.states.size
    steps := memo.steps
    weight := memo.weight + s.marks.weight
    sound := fun key number h => by
      obtain ⟨t, ht, hn⟩ := memo.sound key number h
      have keep {i : Nat} {u : SearchState} (hu : memo.states[i]? = some u) :
          (memo.states.push s)[i]? = some u := by
        rw [Array.getElem?_push, if_neg, hu]
        rintro rfl
        simp at hu
      exact ⟨t, keep ht, keep hn⟩ }

/-- The memo and the number of a state in it; the state is added unless it is found by its
digest. -/
def number (memo : StateMemo m) (s : SearchState) : StateMemo m × Nat :=
  let digest := s.digest
  match memo.numbers[digest]? with
  | some i =>
    if memo.states[i]?.any (·.same s) then (memo, i)
    else (memo.push digest s, memo.states.size)
  | none => (memo.push digest s, memo.states.size)

theorem states_push {memo : StateMemo m} {digest : UInt64} {s : SearchState} {i : Nat}
    {u : SearchState} (h : memo.states[i]? = some u) :
    (memo.push digest s).states[i]? = some u := by
  rw [push, Array.getElem?_push, if_neg, h]
  rintro rfl
  simp at h

/-- Numbering a state keeps the others. -/
theorem states_number {memo : StateMemo m} {s : SearchState} {i : Nat} {u : SearchState}
    (h : memo.states[i]? = some u) : (memo.number s).1.states[i]? = some u := by
  unfold number
  simp only
  split
  · split
    · exact h
    · exact states_push h
  · exact states_push h

/-- The number of a state is its number. -/
theorem states_number_self (memo : StateMemo m) (s : SearchState) :
    (memo.number s).1.states[(memo.number s).2]? = some s := by
  have pushed (digest : UInt64) : (memo.push digest s).states[memo.states.size]? = some s := by
    simp [push]
  unfold number
  simp only
  split
  · split
    · rename_i i _ h
      simp only
      cases hi : memo.states[i]? with
      | none => simp [hi] at h
      | some t =>
        rw [hi, Option.any_some] at h
        rw [SearchState.eq_of_same h]
    · exact pushed _
  · exact pushed _

/-- The memo with one more step. -/
def record (memo : StateMemo m) (key : StepKey) (number : Nat)
    (h : ∃ s, memo.states[key.state]? = some s ∧
      memo.states[number]? = some (m.next s key.code key.following)) : StateMemo m :=
  { memo with
    steps := memo.steps.insert key number
    sound := fun other n hn => by
      rw [Std.HashMap.getElem?_insert] at hn
      split at hn
      · rename_i he
        obtain rfl : key = other := by simpa using he
        obtain rfl : number = n := by simpa using hn
        exact h
      · exact memo.sound other n hn }

/-- How much room the states of a memo may take; after that no step is remembered any more. -/
def weightLimit : Nat := Nat.pow 2 21

/-- Whether a match ends at the place of the state `s`, which has the number `i`, or in the text
after it. -/
def occursFrom (memo : StateMemo m) (i : Nat) (s : SearchState) (hs : memo.states[i]? = some s) :
    (text : List Char) → Bool
  | [] => m.found s
  | c :: rest =>
    if m.found s then true
    else
      let key : StepKey := ⟨i, c.toNat, .ofChar? rest.head?⟩
      match memo.steps[key]? with
      | some j =>
        match ht : memo.states[j]? with
        | some t => memo.occursFrom j t ht rest
        | none => m.occursFrom (m.next s key.code key.following) rest
      | none =>
        let t := m.next s key.code key.following
        if weightLimit < memo.weight then m.occursFrom t rest
        else
          let numbered := memo.number t
          let h : numbered.1.states[numbered.2]? = some t := states_number_self memo t
          (numbered.1.record key numbered.2 ⟨s, states_number hs, h⟩).occursFrom numbered.2 t h
            rest

/-- A search with a memo finds what the plain search finds. -/
theorem occursFrom_eq (memo : StateMemo m) (i : Nat) (s : SearchState)
    (hs : memo.states[i]? = some s) (text : List Char) :
    memo.occursFrom i s hs text = m.occursFrom s text := by
  induction text generalizing memo i s with
  | nil => rfl
  | cons c rest ih =>
    rw [occursFrom, Machine.occursFrom]
    split
    · rfl
    · simp only
      split
      · rename_i j hj
        obtain ⟨s', hs', ht'⟩ := memo.sound _ _ hj
        obtain rfl : s = s' := by simpa [hs] using hs'
        split
        · rename_i t ht
          obtain rfl : t = m.next s c.toNat (.ofChar? rest.head?) := by simpa [ht] using ht'
          rw [ih]
        · rfl
      · split
        · rfl
        · exact ih _ _ _ _

end StateMemo

namespace Machine

/-- Whether a match ends at the place of the state or in the text after it; a memo is kept after the
next `lead` characters. -/
def occursAfter (m : Machine) : (lead : Nat) → SearchState → List Char → Bool
  | 0, s, text => (StateMemo.ofState m s).occursFrom 0 s (StateMemo.states_ofState s) text
  | _ + 1, s, [] => m.found s
  | lead + 1, s, c :: rest =>
    if m.found s then true
    else m.occursAfter lead (m.next s c.toNat (.ofChar? rest.head?)) rest

theorem occursAfter_eq (m : Machine) (lead : Nat) (s : SearchState) (text : List Char) :
    m.occursAfter lead s text = m.occursFrom s text := by
  induction lead generalizing s text with
  | zero => rw [occursAfter, StateMemo.occursFrom_eq]
  | succ lead ih =>
    cases text with
    | nil => rfl
    | cons c rest => rw [occursAfter, occursFrom, ih]

/-- Whether the machine matches some span of `text`. Most texts are so short that a memo would not
be of use. -/
def occursIn (m : Machine) (text : List Char) : Bool :=
  m.occursAfter 64 (start text) text

/-- What occurs in a text is found by the plain search from its start. -/
theorem occursIn_eq (m : Machine) (text : List Char) :
    m.occursIn text = m.occursFrom (start text) text :=
  occursAfter_eq m 64 (start text) text

end Machine

end MarkupFilter.Pattern
