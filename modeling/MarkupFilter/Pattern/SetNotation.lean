import MarkupFilter.Pattern.Escape

/-!
# Sets in brackets

A set is written in brackets: characters, ranges, kinds of characters, named ASCII sets such as
`[:alpha:]` and further sets in brackets, with `&&`, `--` and `~~` between them for what is in both,
in the first only, and in one of the two. These operators have no order among themselves; each takes
everything to its left.

## Main definitions

* `SetOperator` — the operators.
* `OpenSet` — a set whose closing bracket has not come yet.
* `SetNotation.read?` — the set at the start of a text.
-/

set_option autoImplicit false

namespace MarkupFilter.Pattern

/-! ## Operators -/

/-- An operator on sets. -/
inductive SetOperator where
  | both
  | firstOnly
  | oneOnly
  deriving DecidableEq, Repr

namespace SetOperator

/-- The operator that is written by doubling `c`. -/
def ofChar? (c : Char) : Option SetOperator :=
  if c = '&' then some .both
  else if c = '-' then some .firstOnly
  else if c = '~' then some .oneOnly
  else none

/-- The result of an operator. -/
def apply (s t : CharClass) : SetOperator → CharClass
  | .both => s.inter t
  | .firstOnly => s.diff t
  | .oneOnly => s.symmDiff t

end SetOperator

/-! ## Open sets -/

/-- A set and how deep its notation is nested. -/
structure NestedSet where
  set : CharClass
  depth : Nat

/-- A set whose closing bracket has not come yet: what stands before the last operator, with that
operator, and the members after it, with their number and how deep they are nested. -/
structure OpenSet where
  negated : Bool
  left? : Option (NestedSet × SetOperator) := none
  members : List CharClass := []
  count : Nat := 0
  depth : Nat := 0

namespace OpenSet

/-- The set with one more member. -/
def push (s : OpenSet) (set : CharClass) (depth : Nat) : OpenSet :=
  { s with members := set :: s.members, count := s.count + 1, depth := max s.depth depth }

/-- The members after the last operator. Several of them are a level of their own. -/
def operand (s : OpenSet) : NestedSet :=
  ⟨.unionAll s.members, if 2 ≤ s.count then s.depth + 1 else s.depth⟩

/-- Everything so far. Case variants are added on both sides of an operator before it is
applied. -/
def value (s : OpenSet) (flags : Flags) : NestedSet :=
  match s.left? with
  | none => s.operand
  | some (left, operator) =>
    let right := s.operand
    ⟨operator.apply (flags.fold left.set) (flags.fold right.set), max left.depth right.depth + 1⟩

/-- The set after an operator. -/
def operate (s : OpenSet) (flags : Flags) (operator : SetOperator) : OpenSet :=
  { negated := s.negated, left? := some (s.value flags, operator) }

/-- The set after its closing bracket. Case variants are added before it is negated. -/
def close? (s : OpenSet) (flags : Flags) : Option NestedSet :=
  let v := s.value flags
  let set := flags.fold v.set
  (if s.negated then flags.negate? set else some set).map fun set => ⟨set, v.depth + 1⟩

end OpenSet

/-! ## The notation -/

namespace SetNotation

/-- The named sets of ASCII characters. -/
def asciiSet? (name : List Char) : Option CharClass :=
  let named : List (String × List (Nat × Nat)) :=
    [("alnum", [(0x30, 0x39), (0x41, 0x5A), (0x61, 0x7A)]),
      ("alpha", [(0x41, 0x5A), (0x61, 0x7A)]),
      ("ascii", [(0x0, 0x7F)]),
      ("blank", [(0x9, 0x9), (0x20, 0x20)]),
      ("cntrl", [(0x0, 0x1F), (0x7F, 0x7F)]),
      ("digit", [(0x30, 0x39)]),
      ("graph", [(0x21, 0x7E)]),
      ("lower", [(0x61, 0x7A)]),
      ("print", [(0x20, 0x7E)]),
      ("punct", [(0x21, 0x2F), (0x3A, 0x40), (0x5B, 0x60), (0x7B, 0x7E)]),
      ("space", [(0x9, 0xD), (0x20, 0x20)]),
      ("upper", [(0x41, 0x5A)]),
      ("word", [(0x30, 0x39), (0x41, 0x5A), (0x5F, 0x5F), (0x61, 0x7A)]),
      ("xdigit", [(0x30, 0x39), (0x41, 0x46), (0x61, 0x66)])]
  (named.find? fun entry => entry.1.toList == name).map fun entry => .ofRanges entry.2

/-- The named set whose opening bracket is followed by the given text, whether it is negated, and
the text after it. -/
def named? : List Char → Option (CharClass × Bool × List Char)
  | ':' :: cs =>
    let negated := cs.head? = some '^'
    let cs := if negated then cs.drop 1 else cs
    let name := cs.takeWhile (· != ':')
    match cs.drop name.length with
    | ':' :: ']' :: rest => (asciiSet? name).map fun set => (set, negated, rest)
    | _ => none
  | _ => none

/-- Counts dashes after those counted already. The fuel is at least the length of the text. -/
def dashes (flags : Flags) (counted : Nat) : Nat → List Char → Nat × List Char
  | fuel + 1, '-' :: rest => dashes flags (counted + 1) fuel (flags.skip rest)
  | _, cs => (counted, cs)

/-- The start of a set whose opening bracket is followed by the given text. Dashes that come first
are members, and so is a closing bracket that comes first. The fuel is at least the length of the
text. -/
def start (flags : Flags) (fuel : Nat) (cs : List Char) : OpenSet × List Char :=
  let cs := flags.skip cs
  let negated := cs.head? = some '^'
  let cs := if negated then flags.skip (cs.drop 1) else cs
  let (count, cs) := dashes flags 0 fuel cs
  let s := count.repeat (fun s => s.push (.single '-') 0) { negated := negated : OpenSet }
  match count, cs with
  | 0, ']' :: rest => (s.push (.single ']') 0, rest)
  | _, cs => (s, cs)

/-- A single character or an escape. The fuel is at least the length of the text. -/
def member? (flags : Flags) (fuel : Nat) : List Char → Option (Escape × List Char)
  | [] => none
  | '\\' :: rest => Escape.read? flags fuel rest
  | c :: rest => some (.char c false, rest)

/-- The set that a single member stands for. -/
def memberSet? (flags : Flags) : Escape → Option CharClass
  | .char c _ => if flags.allows c then some (.single c) else none
  | .kind kind negated => kind.setUnder? flags negated
  | .anchor _ => none

/-- The set of a range whose ends are members: these must be characters in order. -/
def rangeSet? (flags : Flags) : Escape → Escape → Option CharClass
  | .char low _, .char high _ =>
    if low ≤ high && flags.allows low && flags.allows high then
      some (.range low.toNat high.toNat)
    else none
  | _, _ => none

/-- A member or a range at the start of a text. A dash before the closing bracket or before another
dash makes no range. The fuel is at least the length of the text. -/
def memberOrRange? (flags : Flags) (fuel : Nat) (cs : List Char) : Option (CharClass × List Char) :=
  match member? flags fuel cs with
  | none => none
  | some (low, rest) =>
    let alone : Option (CharClass × List Char) :=
      (memberSet? flags low).map fun set => (set, rest)
    match flags.skip rest with
    | '-' :: afterDash =>
      let next? := flags.afterDash afterDash
      if next? = some ']' || next? = some '-' then alone
      else match member? flags fuel (flags.skip afterDash) with
        | none => none
        | some (high, rest) => (rangeSet? flags low high).map fun set => (set, rest)
    | _ => alone

/-- Reads on in the innermost of the open sets, up to the closing bracket of the outermost. The fuel
is greater than the length of the text. -/
def readFrom? (flags : Flags) :
    Nat → OpenSet → List OpenSet → List Char → Option (NestedSet × List Char)
  | 0, _, _, _ => none
  | fuel + 1, s, around, cs =>
    match flags.skip cs with
    | [] => none
    | c :: rest =>
      if c = '[' then
        match named? rest with
        | some (set, negated, rest) =>
          let set := flags.fold set
          match if negated then flags.negate? set else some set with
          | some set => readFrom? flags fuel (s.push set 0) around rest
          | none => none
        | none =>
          let (t, rest) := start flags fuel rest
          readFrom? flags fuel t (s :: around) rest
      else if c = ']' then
        match s.close? flags, around with
        | some closed, [] => some (closed, rest)
        | some closed, t :: around =>
          readFrom? flags fuel (t.push closed.set closed.depth) around rest
        | none, _ => none
      else
        match if rest.head? = some c then SetOperator.ofChar? c else none with
        | some operator => readFrom? flags fuel (s.operate flags operator) around (rest.drop 1)
        | none =>
          match memberOrRange? flags (fuel + 1) (c :: rest) with
          | some (set, rest) => readFrom? flags fuel (s.push set 0) around rest
          | none => none

/-- The set whose opening bracket is followed by the given text, how deep it is nested, and the text
after its closing bracket. The fuel is greater than the length of the text. -/
def read? (flags : Flags) (fuel : Nat) (cs : List Char) : Option (NestedSet × List Char) :=
  let (s, rest) := start flags fuel cs
  readFrom? flags fuel s [] rest

end SetNotation

end MarkupFilter.Pattern
