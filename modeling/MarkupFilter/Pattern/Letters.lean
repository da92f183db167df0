import MarkupFilter.Pattern.CharClass

/-!
# Tables of masks

Where many sets of characters are asked for the same character again and again, the answers are
kept in a table: for every range of code points that no set tells apart, one mask with the bits of
all sets that hold it.

## Main definitions

* `LetterTable` — masks for ranges of code points.
* `LetterTable.mask` — the mask of a code point.
* `LetterTable.ofSets` — the table of some sets with a mask each.
-/

set_option autoImplicit false

namespace MarkupFilter.Pattern

/-- Masks for the ranges of code points between bounds: the first mask belongs to those before the
first bound, and so on. -/
structure LetterTable where
  bounds : Array Nat
  masks : Array Nat
  deriving DecidableEq, Repr

namespace LetterTable

/-! ## Looking up -/

/-- The number of bounds up to `n`, which is between `low` and `high`. Each step leaves half of the
numbers; the fuel is the number of bounds. -/
def countUpTo (bounds : Array Nat) (n : Nat) : (fuel low high : Nat) → Nat
  | 0, low, _ => low
  | fuel + 1, low, high =>
    if high ≤ low then low
    else
      let middle := (low + high) / 2
      if bounds.getD middle 0 ≤ n then countUpTo bounds n fuel (middle + 1) high
      else countUpTo bounds n fuel low middle

/-- The mask of the code point `n`. -/
def mask (t : LetterTable) (n : Nat) : Nat :=
  t.masks.getD (countUpTo t.bounds n t.bounds.size 0 t.bounds.size) 0

/-! ## Building -/

/-- Two ascending rows as one, without repetition. The fuel is the number of their members. -/
def merge : Nat → List Nat → List Nat → List Nat
  | 0, _, _ => []
  | _ + 1, [], ys => ys
  | _ + 1, xs, [] => xs
  | fuel + 1, x :: xs, y :: ys =>
    if x < y then x :: merge fuel xs (y :: ys)
    else if y < x then y :: merge fuel (x :: xs) ys
    else x :: merge fuel xs ys

/-- The masks with the bits of `mask` added between the boundaries `own` of a set, which are among
the bounds; `inside` says whether the first range is in the set. -/
def add (mask : Nat) (inside : Bool) (own : List Nat) : List Nat → List Nat → List Nat
  | [], masks => masks.map fun m => if inside then m ||| mask else m
  | _ :: _, [] => []
  | b :: bounds, m :: masks =>
    let m := if inside then m ||| mask else m
    match own with
    | [] => m :: add mask inside [] bounds masks
    | d :: own =>
      if d = b then m :: add mask (!inside) own bounds masks
      else m :: add mask inside (d :: own) bounds masks

/-- The table in which every code point has the bits of all sets that hold it. -/
def ofSets (sets : List (CharClass × Nat)) : LetterTable :=
  let bounds := Halving.combine (fun xs ys => merge (xs.length + ys.length) xs ys) []
    (sets.map fun entry => entry.1.boundaries)
  let masks := sets.foldl (fun masks (set, mask) => add mask false set.boundaries bounds masks)
    (List.replicate (bounds.length + 1) 0)
  ⟨bounds.toArray, masks.toArray⟩

end LetterTable

end MarkupFilter.Pattern
