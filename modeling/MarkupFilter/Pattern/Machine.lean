import MarkupFilter.Pattern.Expression
import MarkupFilter.Pattern.Letters

/-!
# Machines

An expression is made ready for searching as a machine: an expression whose parts know at which
places they match nothing, and in which words of characters are laid out on tracks. A position on a
track has one bit for each copy of the word that counted repetitions call for, so that a repetition
needs no copies of its body: in a body that may come `n` times, what would be one bit becomes `n`
bits, the lowest for the first time.

## Main definitions

* `Track` — words laid out side by side.
* `Machine` — machines.
* `Machine.nullable` — the places at which a machine matches nothing.
* `Machine.ofExpression` — the machine of an expression.
-/

set_option autoImplicit false

namespace MarkupFilter.Pattern

/-! ## Bits -/

namespace Bits

/-- The lowest `n` bits. -/
def ones (n : Nat) : Nat :=
  Nat.pow 2 n - 1

/-- Bits from an offset on. -/
structure Piece where
  offset : Nat
  bits : Nat

/-- Two pieces as one, from the lower offset on. -/
def Piece.join (a b : Piece) : Piece :=
  if a.offset ≤ b.offset then ⟨a.offset, a.bits ||| b.bits <<< (b.offset - a.offset)⟩
  else ⟨b.offset, b.bits ||| a.bits <<< (a.offset - b.offset)⟩

/-- The same bits from each of the offsets on. -/
def atOffsets (bits : Nat) (offsets : List Nat) : Nat :=
  let piece := Halving.combine Piece.join ⟨0, 0⟩ (offsets.map fun offset => ⟨offset, bits⟩)
  piece.bits <<< piece.offset

end Bits

/-! ## Tracks -/

/-- A word that is matched: a set for each of its characters. -/
abbrev SetWord : Type := List CharClass

/-- Words laid out side by side. Each position has `width` bits, and `width` bits higher is the next
position. -/
structure Track where
  width : Nat
  /-- The lowest bit of every position at which a word starts. -/
  starts : Nat
  /-- All bits of the other positions. -/
  inner : Nat
  /-- All bits of the positions at which a word ends. -/
  ends : Nat
  /-- Where the bits of these positions begin. -/
  endOffsets : List Nat
  /-- All bits of the positions whose sets hold a character. -/
  table : LetterTable

namespace Track

/-- The offsets of the positions that have a set, with one more for the set `s`. -/
def insert (s : CharClass) (offset : Nat) :
    List (CharClass × List Nat) → List (CharClass × List Nat)
  | [] => [(s, [offset])]
  | (t, offsets) :: rest =>
    if t = s then (t, offset :: offsets) :: rest else (t, offsets) :: insert s offset rest

/-- The offset of every character of a word that starts at the given one, and where the next word
can start. -/
def place (width : Nat) (offset : Nat) (sets : List (CharClass × List Nat)) :
    SetWord → List (CharClass × List Nat) × Nat
  | [] => (sets, offset)
  | s :: word => place width (offset + width) (insert s offset sets) word

/-- The layout of some words: the offsets of all sets and where each word starts and ends, the last
word first. -/
structure Layout where
  size : Nat := 0
  sets : List (CharClass × List Nat) := []
  starts : List Nat := []
  ends : List Nat := []

/-- The layout with one more word. -/
def Layout.add (width : Nat) (l : Layout) (word : SetWord) : Layout :=
  let (sets, size) := place width l.size l.sets word
  ⟨size, sets, l.size :: l.starts, (size - width) :: l.ends⟩

/-- The track of some words, none of them empty. -/
def ofWords (width : Nat) (words : List SetWord) : Track :=
  let l := words.foldl (Layout.add width) {}
  let block := Bits.ones width
  { width := width
    starts := Bits.atOffsets 1 l.starts
    inner := Bits.ones l.size ^^^ Bits.atOffsets block l.starts
    ends := Bits.atOffsets block l.ends
    endOffsets := l.ends
    table := .ofSets (l.sets.map fun (s, offsets) => (s, Bits.atOffsets block offsets)) }

end Track

/-! ## Machines -/

/-- An expression that is ready for searching. -/
inductive Machine where
  /-- One of some words. -/
  | track (t : Track)
  /-- One of some machines, or nothing at the places in `nothing`. -/
  | choice (nothing : PlaceSet) (items : List Machine)
  /-- All of some machines, one after the other, which match nothing at the places in `nothing`. -/
  | row (nothing : PlaceSet) (items : List Machine)
  /-- A machine any number of times, or nothing at the places in `nothing`. -/
  | loop (nothing : PlaceSet) (body : Machine)
  /-- A machine at least `min` and at most `copies` times. Outside of it there are `width` copies of
  everything, inside `copies` times as many. -/
  | count (nothing : PlaceSet) (width min copies : Nat) (body : Machine)

namespace Machine

/-- The places at which the machine matches nothing. -/
def nullable : Machine → PlaceSet
  | .track _ => .empty
  | .choice nothing _ => nothing
  | .row nothing _ => nothing
  | .loop nothing _ => nothing
  | .count nothing _ _ _ _ => nothing

/-- The machine that matches nothing where the places are in the set. -/
def nothing (places : PlaceSet) : Machine :=
  .choice places []

/-- One of some machines, or nothing at some further places. -/
def choiceOf (places : PlaceSet) (items : List Machine) : Machine :=
  .choice (items.foldl (fun s m => s.union m.nullable) places) items

/-- All of some machines, one after the other. -/
def rowOf : List Machine → Machine
  | [m] => m
  | items => .row (items.foldl (fun s m => s.inter m.nullable) .all) items

/-- A machine at least `min` times, and at most `max` times if there is a bound; `body` gives the
machine for a width. -/
def repeating (width min : Nat) (max : Option Nat) (body : Nat → Machine) : Machine :=
  let counted (min copies : Nat) : Machine :=
    let m := body (width * copies)
    .count (if min = 0 then .all else m.nullable) width min copies m
  match max with
  | some max => if max = 1 then choiceOf .all [body width] else counted min max
  | none =>
    let m := body width
    if min = 0 then .loop .all m
    else
      let atLeastOnce := .loop m.nullable m
      if min = 1 then atLeastOnce else rowOf [counted (min - 1) (min - 1), atLeastOnce]

end Machine

namespace Expression

mutual

/-- The word that the expression is, if it is one. -/
def setWord? : Expression → Option SetWord
  | .literal cs => if cs.isEmpty then none else some (cs.map CharClass.single)
  | .chars s => some [s]
  | .anchor _ => none
  | .group _ body => body.setWord?
  | .times .. => none
  | .concat es => setWordOfAll? [] es
  | .either _ => none

/-- The word that a row of expressions is after another word, whose last character is first. -/
def setWordOfAll? (word : SetWord) : List Expression → Option SetWord
  | [] => if word.isEmpty then none else some word.reverse
  | e :: es =>
    match e.setWord? with
    | some next => setWordOfAll? (next.reverseAux word) es
    | none => none

end

/-- The finished machines, the last one first, after the word that was being collected, whose last
character is first. -/
def finishWord (width : Nat) (word : SetWord) (done : List Machine) : List Machine :=
  if word.isEmpty then done else .track (.ofWords width [word.reverse]) :: done

mutual

/-- The machine of an expression of which `width` copies are needed. -/
def machine (width : Nat) : Expression → Machine
  | .literal cs =>
    if cs.isEmpty then .nothing .all else .track (.ofWords width [cs.map CharClass.single])
  | .chars s => .track (.ofWords width [[s]])
  | .anchor a => .nothing (.ofAnchor a)
  | .group _ body => body.machine width
  | .times body min max => Machine.repeating width min max fun width => body.machine width
  | .concat es => machineOfAll width [] [] es
  | .either es =>
    match es.mapM setWord? with
    | some words => .track (.ofWords width words)
    | none => .choiceOf .empty (machines width [] es)

/-- The machine of a row of expressions after the finished machines and the word that is being
collected. -/
def machineOfAll (width : Nat) (word : SetWord) (done : List Machine) : List Expression → Machine
  | [] => .rowOf (finishWord width word done).reverse
  | e :: es =>
    match e.setWord? with
    | some next => machineOfAll width (next.reverseAux word) done es
    | none => machineOfAll width [] (e.machine width :: finishWord width word done) es

/-- The machines of some expressions after those in `done`, the last of which is first. -/
def machines (width : Nat) (done : List Machine) : List Expression → List Machine
  | [] => done.reverse
  | e :: es => machines width (e.machine width :: done) es

end

end Expression

/-- The machine of an expression. -/
def Machine.ofExpression (e : Expression) : Machine :=
  e.machine 1

end MarkupFilter.Pattern
