import MarkupFilter.Pattern.Expression
import MarkupFilter.Text.Utf8
import MarkupFilter.Text.Utf8Ranges

/-!
# The storage of patterns

A pattern is meant to be searched for by two automata on bytes, one for each direction. How much
storage they take is known before they are built, and a pattern for which they would take too much
is refused.

An automaton is put together from one for each part of the expression. Every state takes
`stateBytes`. A state that reads one of several byte ranges takes `rangeBytes` more for each of
them, and a state that branches takes `wayBytes` more for each way on; so a part that ends with a
branching state takes more when something follows.

## Main definitions

* `Storage` — what a part of an automaton takes.
* `Expression.storage` — what the part for an expression takes.
* `Expression.fits` — whether the automata of an expression are within the limit.
-/

set_option autoImplicit false

namespace MarkupFilter.Pattern

/-- The direction in which an automaton reads. -/
inductive Direction where
  | forward
  | backward
  deriving DecidableEq, Repr

/-- The bytes of a state. -/
def stateBytes : Nat := 32

/-- The bytes of a range in a state that reads one of several. -/
def rangeBytes : Nat := 8

/-- The bytes of a way on from a branching state. -/
def wayBytes : Nat := 4

/-- The bytes that a part of an automaton takes, and whether it ends with a branching state. -/
structure Storage where
  bytes : Nat
  branching : Bool := false
  deriving DecidableEq, Repr

namespace Storage

/-- The bytes that the part takes more when something follows. -/
def wayOn (s : Storage) : Nat :=
  if s.branching then wayBytes else 0

/-- The bytes of the part when something follows. -/
def followed (s : Storage) : Nat :=
  s.bytes + s.wayOn

/-- A single state. -/
def state : Storage := ⟨stateBytes, false⟩

/-- Two parts, of which `s` is read before `t`. -/
def andThen (s t : Storage) : Storage :=
  ⟨s.followed + t.bytes, t.branching⟩

/-! ## Repetition -/

/-- A part exactly `n` times. -/
def exactly (s : Storage) (n : Nat) : Storage :=
  if n = 0 then state else ⟨n * s.bytes + (n - 1) * s.wayOn, s.branching⟩

/-- A part at least `min` times, where `moves` says that it always takes characters. -/
def atLeast (s : Storage) (moves : Bool) (min : Nat) : Storage :=
  if min = 0 then
    if moves then ⟨s.followed + stateBytes + wayBytes, true⟩
    else ⟨s.followed + 3 * stateBytes + 4 * wayBytes, false⟩
  else ⟨min * s.followed + stateBytes + wayBytes, true⟩

/-- A part at least `min` and at most `max` times. -/
def between (s : Storage) (min max : Nat) : Storage :=
  if min = 0 ∧ max = 1 then ⟨s.followed + 2 * stateBytes + 2 * wayBytes, false⟩
  else if min = max then s.exactly min
  else
    ⟨(s.exactly min).followed + stateBytes +
      (max - min) * (s.followed + stateBytes + 2 * wayBytes), false⟩

/-! ## Sets -/

/-- A set of characters. One of ASCII characters is read by one state. Otherwise, forward there is a
state for each different part of the UTF-8 forms, and backward one for each different beginning of
them, with a branching state in front. -/
def ofSet (s : CharClass) : Direction → Storage
  | direction =>
    if s.isAscii then ⟨2 * stateBytes + rangeBytes * s.ranges.length, false⟩
    else
      let sequences := s.ranges.flatMap fun (low, high) => Utf8Ranges.sequences low high
      match direction with
      | .forward =>
        ⟨(Utf8Ranges.distinctNodes sequences).foldl
          (fun n node => n + (stateBytes + rangeBytes * node.length)) stateBytes, false⟩
      | .backward =>
        ⟨2 * stateBytes + stateBytes * Utf8Ranges.countBeginnings 4 sequences +
          wayBytes * sequences.length, false⟩

/-! ## Words -/

/-- What is left of words, in their order, after the same first bytes. -/
abbrev Words : Type := List (List Nat)

/-- The words that go on with each byte, in reverse. -/
abbrev ByNextByte : Type := List (Nat × Words)

/-- One more word, which goes on with the byte `b` and then with `word`. -/
def addWord (b : Nat) (word : List Nat) : ByNextByte → ByNextByte
  | [] => [(b, [word])]
  | (c, words) :: rest =>
    if c = b then (c, word :: words) :: rest else (c, words) :: addWord b word rest

/-- What the states for the same first bytes take: `ends` counts the words that end there, `current`
is the section of those that go on since the last of these, `bytes` is what the sections before
take, and `later` the words that go on in those. -/
structure WordState where
  ends : Nat := 0
  current : ByNextByte := []
  bytes : Nat := 0
  later : List Words := []

namespace WordState

/-- The state after the current section. A section is read by one state. -/
def closeSection (w : WordState) : WordState :=
  match w.current with
  | [] => w
  | [(_, words)] =>
    { w with
      current := []
      bytes := w.bytes + stateBytes + wayBytes
      later := words.reverse :: w.later }
  | current =>
    { w with
      current := []
      bytes := w.bytes + stateBytes + rangeBytes * current.length + wayBytes
      later := current.foldl (fun later entry => entry.2.reverse :: later) w.later }

/-- The state with one more word. A word that ends here ends the section, so that it keeps its rank
among the others; where nothing goes on so far, only the first such word counts. -/
def add (w : WordState) : List Nat → WordState
  | [] =>
    if w.current.isEmpty && w.later.isEmpty && w.ends ≠ 0 then w
    else
      let w := w.closeSection
      { w with ends := w.ends + 1, bytes := w.bytes + wayBytes }
  | b :: word => { w with current := addWord b word w.current }

end WordState

/-- What the states for the given words take, and for all that they go on with. Where all words end,
there is no state. The fuel is the length of the longest word and one more. -/
def wordsFrom (bytes : Nat) : Nat → List Words → Nat
  | 0, _ => bytes
  | _, [] => bytes
  | fuel + 1, groups =>
    let (bytes, later) := groups.foldl (fun (bytes, later) words =>
      if words.all List.isEmpty then (bytes, later)
      else
        let w := (words.foldl WordState.add {}).closeSection
        (bytes + stateBytes + w.bytes, w.later ++ later)) (bytes, [])
    wordsFrom bytes fuel later

/-- A choice of words. -/
def ofWords (words : List (List Char)) (direction : Direction) : Storage :=
  let encoded := words.map fun word => word.flatMap fun c => Utf8Ranges.bytes c.toNat
  let encoded := match direction with
    | .forward => encoded
    | .backward => encoded.map List.reverse
  let longest := encoded.foldl (fun n word => max n word.length) 0
  ⟨wordsFrom stateBytes (longest + 1) [encoded], false⟩

end Storage

namespace Expression

/-! ## Expressions -/

/-- The word that the expression is, if it is a literal. -/
def word? : Expression → Option (List Char)
  | .literal [] => none
  | .literal cs => some cs
  | _ => none

mutual

/-- What the part of an automaton for an expression takes. Groups are marked at both ends forward,
and not at all backward. -/
def storage (direction : Direction) : Expression → Storage
  | .literal cs =>
    if cs.isEmpty then .state else ⟨stateBytes * Utf8.size cs, false⟩
  | .chars s => .ofSet s direction
  | .anchor _ => .state
  | .group _ body =>
    let s := body.storage direction
    match direction with
    | .forward => ⟨s.followed + 2 * stateBytes, false⟩
    | .backward => s
  | .times body min max =>
    let s := body.storage direction
    match max with
    | some max => s.between min max
    | none => s.atLeast (body.minLength.any (0 < ·)) min
  | .concat es => storageOfAll direction none es
  | .either es =>
    match es.mapM word? with
    | some words => .ofWords words direction
    | none => ⟨storageOfAny direction (2 * stateBytes) es, false⟩

/-- What a row of expressions takes after others. -/
def storageOfAll (direction : Direction) (before : Option Storage) : List Expression → Storage
  | [] => before.getD .state
  | e :: es =>
    let s := e.storage direction
    let s := match before, direction with
      | none, _ => s
      | some t, .forward => t.andThen s
      | some t, .backward => s.andThen t
    storageOfAll direction (some s) es

/-- The bytes of alternatives beside others. -/
def storageOfAny (direction : Direction) (bytes : Nat) : List Expression → Nat
  | [] => bytes
  | e :: es => storageOfAny direction (bytes + (e.storage direction).followed + wayBytes) es

end

mutual

/-- Whether it follows from the form of an expression that a match can begin, or read backward end,
only where the condition `a` holds. -/
def requires (a : Anchor) (direction : Direction) : Expression → Bool
  | .literal _ => false
  | .chars _ => false
  | .anchor b => a == b
  | .group _ body => body.requires a direction
  | .times body min _ => 0 < min && body.requires a direction
  | .concat es =>
    match direction with
    | .forward => requiresAtStart a es
    | .backward => requiresAtEnd a false es
  | .either es => requiresInEach a direction es

/-- Whether the first expressions that take no characters, or the next one, need the condition. -/
def requiresAtStart (a : Anchor) : List Expression → Bool
  | [] => false
  | e :: es =>
    if e.requires a .forward then true
    else if e.maxLength = some 0 then requiresAtStart a es
    else false

/-- Whether the last expressions that take no characters, or the one before them, need the
condition; `sofar` says so of the expressions before these. -/
def requiresAtEnd (a : Anchor) (sofar : Bool) : List Expression → Bool
  | [] => sofar
  | e :: es =>
    requiresAtEnd a (e.requires a .backward || e.maxLength = some 0 && sofar) es

/-- Whether each of the alternatives needs the condition. -/
def requiresInEach (a : Anchor) (direction : Direction) : List Expression → Bool
  | [] => true
  | e :: es => if e.requires a direction then requiresInEach a direction es else false

end

/-- The bytes of what lets a match begin anywhere, or of the single state instead if it can begin at
the edge of the text only. -/
def entryBytes (e : Expression) (direction : Direction) : Nat :=
  let edge := match direction with
    | .forward => Anchor.textStart
    | .backward => Anchor.textEnd
  if e.requires edge direction then stateBytes
  else 3 * stateBytes + rangeBytes + 2 * wayBytes

/-- The bytes of the whole automaton. Forward the whole match is a group too. -/
def automatonBytes (e : Expression) (direction : Direction) : Nat :=
  let s := e.storage direction
  let marks := match direction with
    | .forward => 2 * stateBytes
    | .backward => 0
  e.entryBytes direction + s.followed + marks + stateBytes

/-- The bytes that an automaton may take. -/
def storageLimit : Nat := 10 * Nat.pow 2 20

/-- Whether the expression is a choice of so many words that it is not searched for by automata. -/
def isWordList : Expression → Bool
  | .either es => 3000 ≤ es.length && (es.mapM word?).isSome
  | _ => false

/-- Whether both automata are within the limit. -/
def fits (e : Expression) : Bool :=
  e.isWordList ||
    e.automatonBytes .forward ≤ storageLimit && e.automatonBytes .backward ≤ storageLimit

end Expression

end MarkupFilter.Pattern
