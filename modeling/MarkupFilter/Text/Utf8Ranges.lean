/-!
# Ranges of bytes

The UTF-8 forms of a range of code points are described by a few sequences of byte ranges, such that
a code point is in the range exactly if its bytes lie in the ranges of one of the sequences, one by
one.

## Main definitions

* `Utf8Ranges.ByteSequence` — a range for each byte.
* `Utf8Ranges.sequences` — the sequences of a range of code points, in ascending order.
* `Utf8Ranges.distinctNodes` — the automaton that reads some sequences and has equal parts once.
* `Utf8Ranges.countBeginnings` — the number of different beginnings of some sequences.
-/

set_option autoImplicit false

namespace MarkupFilter.Utf8Ranges

/-- The bytes from a first to a last one. -/
abbrev ByteRange : Type := Nat × Nat

/-- A range for each byte. -/
abbrev ByteSequence : Type := List ByteRange

/-! ## Sequences -/

/-- The bytes of a code point. -/
def bytes (n : Nat) : List Nat :=
  if n < 0x80 then [n]
  else if n < 0x800 then [0xC0 + n / 0x40, 0x80 + n % 0x40]
  else if n < 0x10000 then [0xE0 + n / 0x1000, 0x80 + n / 0x40 % 0x40, 0x80 + n % 0x40]
  else
    [0xF0 + n / 0x40000, 0x80 + n / 0x1000 % 0x40, 0x80 + n / 0x40 % 0x40, 0x80 + n % 0x40]

/-- Where a range has to be cut because only a part of it has the same bytes before the last `n`
ones, where `unit` is 64 to the power of `n`: behind the rest of the first such part, or else before
the last one. -/
def cutAt? (low high unit : Nat) : Option Nat :=
  if low / unit = high / unit then none
  else if low % unit ≠ 0 then some (low / unit * unit + (unit - 1))
  else if high % unit ≠ unit - 1 then some (high / unit * unit - 1)
  else none

/-- The last code point of the first part of a range that no single sequence describes. -/
def cut? (low high : Nat) : Option Nat :=
  match [0x7F, 0x7FF, 0xFFFF].find? fun last => low ≤ last && last < high with
  | some last => some last
  | none => if high < 0x80 then none else [0x40, 0x1000, 0x40000].findSome? (cutAt? low high)

/-- The sequences of the code points from `low` to `high`, cut at most as often as the fuel says. -/
def sequencesFrom : Nat → Nat → Nat → List ByteSequence
  | 0, low, high => [(bytes low).zip (bytes high)]
  | fuel + 1, low, high =>
    match cut? low high with
    | none => [(bytes low).zip (bytes high)]
    | some last => sequencesFrom fuel low last ++ sequencesFrom fuel (last + 1) high

/-- The sequences of the code points from `low` to `high`. There are at most three cuts between
lengths and two cuts for each byte after the first. -/
def sequences (low high : Nat) : List ByteSequence :=
  sequencesFrom 32 low high

/-! ## Automata -/

/-- A state of an automaton: the ranges that it reads, each with the number of the next state, which
is zero for the end. -/
abbrev Node : Type := List (ByteRange × Nat)

/-- Sequences in groups that begin alike. -/
def groups (ss : List ByteSequence) : List (List ByteSequence) :=
  ss.splitBy fun a b => a.head? == b.head?

/-- The states that read some sequences after those there are already, and the number of the first
of them. A state that is there already is taken again. The fuel is the length of the sequences. -/
def addNodes : Nat → Array Node → List ByteSequence → Array Node × Nat
  | 0, nodes, _ => (nodes, 0)
  | fuel + 1, nodes, ss =>
    let (nodes, node) := (groups ss).foldl (fun (nodes, node) group =>
      match group with
      | [first] :: _ => (nodes, (first, 0) :: node)
      | (first :: _) :: _ =>
        let (nodes, next) := addNodes fuel nodes (group.map List.tail)
        (nodes, (first, next) :: node)
      | _ => (nodes, node)) (nodes, [])
    match nodes.findIdx? (· == node) with
    | some i => (nodes, i + 1)
    | none => (nodes.push node, nodes.size + 1)

/-- The states of the automaton that reads the sequences and has equal parts once. -/
def distinctNodes (ss : List ByteSequence) : List Node :=
  (addNodes 4 #[] ss).1.toList

/-- The number of different beginnings of the sequences, up to the given length. -/
def countBeginnings : Nat → List ByteSequence → Nat
  | 0, _ => 0
  | length + 1, ss =>
    (groups ss).foldl (fun n group =>
      match group with
      | [_] :: _ => n + 1
      | (_ :: _) :: _ => n + 1 + countBeginnings length (group.map List.tail)
      | _ => n) 0

end MarkupFilter.Utf8Ranges
