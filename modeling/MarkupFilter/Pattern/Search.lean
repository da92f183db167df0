import MarkupFilter.Pattern.Machine

/-!
# Searching a text for a pattern

A text is read once from left to right. Every position on a track carries marks, one for each copy,
which are set while some match that has begun has just read a character there. Reading a character
moves the marks on; a match has ended when a mark can reach the end of the machine without reading.
Parts of the machine without marks are passed over unless a match can enter them.

A set of copies is a number with a bit for each of them: `enter` below are the copies in which a
machine may be entered, `ended` those in which it has come to its end.

## Main definitions

* `Marks` — the marks in a machine.
* `Machine.shift` — the marks after one more character.
* `SearchState` — where a search stands.
* `Machine.occursFrom` — whether a machine matches anywhere in a text from a state on.
-/

set_option autoImplicit false

namespace MarkupFilter.Pattern

/-- The marks in a machine, and the copies in which it has ended. -/
inductive Marks where
  /-- No mark is set. -/
  | none
  /-- The marks on a track. -/
  | track (ended marks : Nat)
  /-- The marks in the parts; what is left out at the end of the list has none. -/
  | parts (ended : Nat) (items : List Marks)
  deriving Repr

namespace Marks

/-- The copies in which the machine has ended. -/
def ended : Marks → Nat
  | .none => 0
  | .track ended _ => ended
  | .parts ended _ => ended

/-- The marks in the parts. -/
def items : Marks → List Marks
  | .parts _ items => items
  | _ => []

/-- Whether no mark is set. -/
def isNone : Marks → Bool
  | .none => true
  | _ => false

/-- Marks in parts, the last of which is first. -/
def ofReversed (ended : Nat) (items : List Marks) : Marks :=
  match items.dropWhile isNone with
  | [] => .none
  | items => .parts ended items.reverse

end Marks

namespace Bits

/-- The bits of all blocks of `width` bits in the lowest block. The blocks are laid over each other
in pairs as often as the fuel says, which is the number of times that their number can be halved,
and one more. -/
def foldDown (shift : Nat) : Nat → Nat → Nat
  | 0, bits => bits
  | fuel + 1, bits => foldDown (2 * shift) fuel (bits ||| bits >>> shift)

/-- Every bit repeated in all higher blocks of `width` bits. -/
def smearUp (shift : Nat) (limit : Nat) : Nat → Nat → Nat
  | 0, bits => bits
  | fuel + 1, bits => smearUp (2 * shift) limit fuel ((bits ||| bits <<< shift) &&& limit)

end Bits

namespace Track

/-- The copies in which one of the words has ended. -/
def endedCopies (t : Track) (marks : Nat) : Nat :=
  if marks &&& t.ends = 0 then 0
  else if t.width = 1 then 1
  else t.endOffsets.foldl (fun bits offset => bits ||| marks >>> offset) 0 &&& Bits.ones t.width

/-- The marks after the code point `n`: they go on along the words, and start where the track is
entered, as far as the sets hold `n`. -/
def shift (t : Track) (n : Nat) (enter : Nat) (marks : Nat) : Marks :=
  if enter = 0 && marks = 0 then .none
  else
    let moved := if marks = 0 then 0 else (marks <<< t.width) &&& t.inner
    let entered := moved ||| t.starts * enter
    let marks := if entered = 0 then 0 else entered &&& t.table.mask n
    if marks = 0 then .none else .track (t.endedCopies marks) marks

end Track

namespace Machine

/-- The copies of the body of a counted repetition that may be entered, where its copies have ended
as `ended` says: the first when the repetition is entered, and each other one after the one before,
or at once if that one matches nothing. -/
def enterCounted (width copies : Nat) (passes : Bool) (enter ended : Nat) : Nat :=
  if enter = 0 && ended = 0 then 0
  else
    let limit := Bits.ones (width * copies)
    let entered := (enter ||| ended <<< width) &&& limit
    if passes then Bits.smearUp width limit (Nat.log2 copies + 1) entered else entered

/-- The copies in which a counted repetition has ended, where those of its body have ended as
`ended` says: `min` of them have to be, unless the others match nothing. -/
def endedCounted (width min copies : Nat) (passes : Bool) (ended : Nat) : Nat :=
  let counted := if passes then ended else ended >>> (width * (min - 1))
  if counted = 0 then 0
  else if width = 1 then 1
  else Bits.foldDown width (Nat.log2 copies + 1) counted &&& Bits.ones width

mutual

/-- The marks after the code point `n` between the places `before` and `after`, where the machine
may be entered before it in the copies `enter`. -/
def shift (before after : Place) (n : Nat) (enter : Nat) (k : Marks) : Machine → Marks
  | .track t =>
    match k with
    | .track _ marks => t.shift n enter marks
    | _ => t.shift n enter 0
  | .choice _ items =>
    if enter = 0 && k.isNone then .none else shiftAny before after n enter 0 [] k.items items
  | .row _ items =>
    if enter = 0 && k.isNone then .none else shiftAll before after n enter 0 [] k.items items
  | .loop _ body => body.shift before after n (enter ||| k.ended) k
  | .count _ width min copies body =>
    if enter = 0 && k.isNone then .none
    else
      let inside := k.items.headD .none
      let entered := enterCounted width copies (body.nullable.contains before) enter inside.ended
      match body.shift before after n entered inside with
      | .none => .none
      | inside =>
        .parts (endedCounted width min copies (body.nullable.contains after) inside.ended)
          [inside]

/-- The marks in alternatives after others, which have ended in the copies `ended` and whose marks
are in `done`, the last of them first. -/
def shiftAny (before after : Place) (n : Nat) (enter ended : Nat) (done : List Marks)
    (ks : List Marks) : List Machine → Marks
  | [] => .ofReversed ended done
  | m :: ms =>
    let k := m.shift before after n enter (ks.headD .none)
    shiftAny before after n enter (ended ||| k.ended) (k :: done) ks.tail ms

/-- The marks in a row of machines after others, which have ended before and after the code point in
the copies `enter` and `ended`. -/
def shiftAll (before after : Place) (n : Nat) (enter ended : Nat) (done : List Marks)
    (ks : List Marks) : List Machine → Marks
  | [] => .ofReversed ended done
  | m :: ms =>
    if enter = 0 && ended = 0 && ks.isEmpty then .ofReversed 0 done
    else
      let k := ks.headD .none
      let moved := m.shift before after n enter k
      let enter := if m.nullable.contains before then enter ||| k.ended else k.ended
      let ended := if m.nullable.contains after then ended ||| moved.ended else moved.ended
      shiftAll before after n enter ended (moved :: done) ks.tail ms

end

end Machine

/-! ## Search -/

/-- Where a search stands: at a place, with marks. -/
structure SearchState where
  place : Place
  marks : Marks

namespace Machine

/-- The state at the start of `text`. -/
def start (text : List Char) : SearchState :=
  ⟨⟨.edge, .ofChar? text.head?⟩, .none⟩

/-- Whether a match ends at the place of the state. A match may begin at every place. -/
def found (m : Machine) (s : SearchState) : Bool :=
  m.nullable.contains s.place || s.marks.ended != 0

/-- The state after the code point `n`, which is followed by a neighbour of the given kind. -/
def next (m : Machine) (s : SearchState) (n : Nat) (following : Neighbour) : SearchState :=
  let place : Place := ⟨s.place.after, following⟩
  ⟨place, m.shift s.place place n 1 s.marks⟩

/-- Whether a match ends at the place of the state or in the text after it. -/
def occursFrom (m : Machine) (s : SearchState) : (text : List Char) → Bool
  | [] => m.found s
  | c :: rest =>
    if m.found s then true
    else occursFrom m (m.next s c.toNat (.ofChar? rest.head?)) rest

end Machine

end MarkupFilter.Pattern
