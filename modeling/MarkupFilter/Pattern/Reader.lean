import MarkupFilter.Pattern.Expression
import MarkupFilter.Pattern.SetNotation

/-!
# The notation of patterns

Patterns are written in the customary notation: literal characters, `.`, sets in brackets, groups
with or without a name, alternatives, the repetitions `?`, `*`, `+`, `{n}`, `{n,}` and `{n,m}` (each
also with a trailing `?`), the anchors `^` and `$`, escapes, and flags in parentheses. A text that
is not of this form has no expression, and neither has one that is nested too deep.

The reader goes through the text once with a stack of open groups.

## Main definitions

* `OpenGroup` — a group whose closing parenthesis has not come yet.
* `Reading` — the state of the reader.
* `Expression.read?` — the expression that a text denotes.
-/

set_option autoImplicit false

namespace MarkupFilter.Pattern

/-! ## Open groups -/

/-- An expression, how deep its notation is nested, and whether it is only a directive, which cannot
be repeated. -/
structure Item where
  expression : Expression
  depth : Nat := 0
  directive : Bool := false

/-- Items as one: several of them are a level of their own, put together by `join`. -/
def Item.joined (join : List Expression → Expression) (items : List Item) : Item :=
  let depth := items.foldl (fun depth i => max depth i.depth) 0
  ⟨join (items.map Item.expression), if 2 ≤ items.length then depth + 1 else depth, false⟩

/-- An open group: its number if it has one, the flags in force outside of it, its alternatives so
far and the items of the current one, both in reverse. -/
structure OpenGroup where
  number? : Option Nat := none
  outside : Flags := {}
  alternatives : List Item := []
  items : List Item := []

namespace OpenGroup

/-- The current alternative. -/
def current (g : OpenGroup) : Item :=
  .joined .concatAll g.items.reverse

/-- Everything in the group. -/
def content (g : OpenGroup) : Item :=
  .joined .eitherAll (g.current :: g.alternatives).reverse

/-- The group as an item, after its closing parenthesis. -/
def close (g : OpenGroup) : Item :=
  let content := g.content
  let expression :=
    match g.number? with
    | some number => .group number content.expression
    | none => content.expression
  ⟨expression, content.depth + 1, false⟩

/-- The group with one more item. -/
def push (g : OpenGroup) (item : Item) : OpenGroup :=
  { g with items := item :: g.items }

/-- The group after `|`. -/
def alternate (g : OpenGroup) : OpenGroup :=
  { g with alternatives := g.current :: g.alternatives, items := [] }

/-- The group with its last item repeated; there must be one, and not a directive. -/
def repeatLast? (g : OpenGroup) (min : Nat) (max : Option Nat) : Option OpenGroup :=
  match g.items with
  | item :: items =>
    if item.directive then none
    else
      let again := .repeated item.expression min max
      some { g with items := ⟨again, item.depth + 1, false⟩ :: items }
  | [] => none

end OpenGroup

/-! ## Counts -/

namespace Count

/-- Reads decimal digits after those in `before`, the last of them first. The fuel is at least the
length of the text. -/
def digits (flags : Flags) (before : List Char) : Nat → List Char → List Char × List Char
  | fuel + 1, c :: rest =>
    if Numeral.isDigit 10 c then digits flags (c :: before) fuel (flags.skip rest)
    else (before.reverse, c :: rest)
  | _, cs => (before.reverse, cs)

/-- A decimal number among blanks, of 32 bits at most. The fuel is at least the length of the
text. -/
def number? (flags : Flags) (fuel : Nat) (cs : List Char) : Option (Nat × List Char) :=
  let cs := cs.dropWhile Blank.isBlank
  let (ds, rest) := digits flags [] fuel cs
  let n := Numeral.valueBelow (Nat.pow 2 32) 10 ds
  if ds.isEmpty || Nat.pow 2 32 ≤ n then none
  else some (n, flags.skip (rest.dropWhile Blank.isBlank))

/-- The bounds of a repetition whose opening brace is followed by the given text, and the text after
the closing brace. The fuel is at least the length of the text. -/
def bounds? (flags : Flags) (fuel : Nat) (cs : List Char) :
    Option (Nat × Option Nat × List Char) :=
  match number? flags fuel (flags.skip cs) with
  | none => none
  | some (min, '\x7d' :: rest) => some (min, some min, rest)
  | some (min, ',' :: rest) =>
    match flags.skip rest with
    | '\x7d' :: rest => some (min, none, rest)
    | cs =>
      match number? flags fuel cs with
      | some (max, '\x7d' :: rest) => if min ≤ max then some (min, some max, rest) else none
      | _ => none
  | some _ => none

end Count

/-! ## Parentheses -/

/-- What an opening parenthesis begins. -/
inductive Opening where
  /-- A group with a number, and perhaps with a name. -/
  | numbered (name? : Option (List Char))
  /-- A group without a number, in which the flags hold. -/
  | plain (flags : Flags)
  /-- Flags for the rest of the enclosing group. -/
  | directive (flags : Flags)

namespace Opening

/-- A group name up to `>`: a letter or underscore, then letters, numbers, underscores, full stops
and brackets. -/
def name? (cs : List Char) : Option (List Char × List Char) :=
  let name := cs.takeWhile (· != '>')
  match name, cs.drop name.length with
  | c :: others, '>' :: rest =>
    let isNameChar (d : Char) : Bool :=
      WordCharacter.isAlphanumeric d || d = '_' || d = '.' || d = '[' || d = ']'
    if (WordCharacter.isAlphabetic c || c = '_') && others.all isNameChar then some (name, rest)
    else none
  | _, _ => none

/-- What the parenthesis before the given text opens, and the text after that. Look-around is not
known, so its marks are refused as flags or names. -/
def read? (flags : Flags) (cs : List Char) : Option (Opening × List Char) :=
  let named (cs : List Char) : Option (Opening × List Char) :=
    (name? cs).map fun (name, rest) => (.numbered (some name), rest)
  match flags.skip cs with
  | '?' :: 'P' :: '<' :: rest => named rest
  | '?' :: '<' :: rest => named rest
  | '?' :: rest =>
    match flags.read? true [] rest with
    | some (flags, .directive, rest) => some (.directive flags, rest)
    | some (flags, .group, rest) => some (.plain flags, rest)
    | none => none
  | cs => some (.numbered none, cs)

end Opening

/-! ## The reader -/

/-- The state of the reader: the flags in force, the innermost open group and those around it, the
number of groups that have one, and the names given so far. -/
structure Reading where
  flags : Flags := {}
  group : OpenGroup := {}
  around : List OpenGroup := []
  groupCount : Nat := 0
  names : List (List Char) := []

namespace Reading

/-- The state with one more item in the innermost group. -/
def push (r : Reading) (e : Expression) (depth : Nat) : Reading :=
  { r with group := r.group.push ⟨e, depth, false⟩ }

/-- One literal character under the flags; `byte` as in `Escape.char`. Without `u` a byte outside
ASCII is refused, and letters outside ASCII have no variants. -/
def literal? (flags : Flags) (c : Char) (byte : Bool) : Option Expression :=
  if byte && !flags.allows c then none
  else if flags.foldCase && flags.allows c then
    some (.ofSet (if flags.unicode then .ofChars (CaseFolding.variants c)
      else (CharClass.single c).foldAsciiCase))
  else some (.literal [c])

/-- The expression of the full stop; without `u` there is none. -/
def fullStop? (flags : Flags) : Option Expression :=
  if !flags.unicode then none
  else if flags.dotAll then some (.ofSet .all)
  else if flags.anyLines then some (.ofSet (CharClass.ofChars ['\n', '\r']).compl)
  else some (.ofSet (CharClass.single '\n').compl)

/-- The anchor `^`. -/
def caret (flags : Flags) : Anchor :=
  if !flags.lines then .textStart else if flags.anyLines then .anyLineStart else .lineStart

/-- The anchor `$`. -/
def dollar (flags : Flags) : Anchor :=
  if !flags.lines then .textEnd else if flags.anyLines then .anyLineEnd else .lineEnd

/-- The expression of an escape. -/
def escaped? (flags : Flags) : Escape → Option Expression
  | .char c byte => literal? flags c byte
  | .kind kind negated => (kind.setUnder? flags negated).map .ofSet
  | .anchor a => some (.anchor a)

/-- The last item repeated. A question mark after that makes no difference to a search. -/
def repeated? (r : Reading) (min : Nat) (max : Option Nat) (rest : List Char) :
    Option (Reading × List Char) :=
  (r.group.repeatLast? min max).map fun group =>
    ({ r with group := group },
      match rest with
      | '?' :: rest => rest
      | _ => rest)

/-- The state after an opening parenthesis. -/
def openGroup? (r : Reading) : Opening → Option Reading
  | .directive flags =>
    some { r with flags := flags, group := r.group.push ⟨.empty, 0, true⟩ }
  | .plain flags =>
    some { r with
      flags := flags
      group := { outside := r.flags }
      around := r.group :: r.around }
  | .numbered name? =>
    let number := r.groupCount + 1
    match name? with
    | some name =>
      if r.names.contains name then none
      else some { r with
        group := { number? := some number, outside := r.flags }
        around := r.group :: r.around
        groupCount := number
        names := name :: r.names }
    | none =>
      some { r with
        group := { number? := some number, outside := r.flags }
        around := r.group :: r.around
        groupCount := number }

/-- The state after a closing parenthesis. -/
def closeGroup? (r : Reading) : Option Reading :=
  match r.around with
  | [] => none
  | outer :: around =>
    some { r with
      flags := r.group.outside
      group := outer.push r.group.close
      around := around }

/-- The state after the construct that starts with `c`, and the text after it. The fuel is greater
than the length of `rest`. -/
def step? (r : Reading) (fuel : Nat) (c : Char) (rest : List Char) : Option (Reading × List Char) :=
  if c = '(' then
    match Opening.read? r.flags rest with
    | some (opening, rest) => (r.openGroup? opening).map fun r => (r, rest)
    | none => none
  else if c = ')' then r.closeGroup?.map fun r => (r, rest)
  else if c = '|' then some ({ r with group := r.group.alternate }, rest)
  else if c = '[' then
    (SetNotation.read? r.flags fuel rest).map fun (s, rest) =>
      (r.push (.ofSet s.set) s.depth, rest)
  else if c = '?' then r.repeated? 0 (some 1) rest
  else if c = '*' then r.repeated? 0 none rest
  else if c = '+' then r.repeated? 1 none rest
  else if c = '\x7b' then
    match Count.bounds? r.flags fuel rest with
    | some (min, max, rest) => r.repeated? min max (r.flags.skip rest)
    | none => none
  else if c = '\\' then
    match Escape.read? r.flags fuel rest with
    | some (e, rest) => (escaped? r.flags e).map fun e => (r.push e 0, rest)
    | none => none
  else if c = '.' then (fullStop? r.flags).map fun e => (r.push e 0, rest)
  else if c = '^' then some (r.push (.anchor (caret r.flags)) 0, rest)
  else if c = '$' then some (r.push (.anchor (dollar r.flags)) 0, rest)
  else (literal? r.flags c false).map fun e => (r.push e 0, rest)

/-- Reads the rest of a pattern. Every group must be closed at the end, and nothing may be nested
too deep. The fuel is greater than the length of the text. -/
def read? : Nat → Reading → List Char → Option Expression
  | 0, _, _ => none
  | fuel + 1, r, cs =>
    match r.flags.skip cs with
    | [] =>
      let content := r.group.content
      if r.around.isEmpty && content.depth ≤ Expression.nestLimit then some content.expression
      else none
    | c :: rest =>
      match r.step? (fuel + 1) c rest with
      | some (r, rest) => read? fuel r rest
      | none => none

end Reading

/-- The expression denoted by `source`; none when it is not a pattern. -/
def Expression.read? (source : String) : Option Expression :=
  let cs := source.toList
  Reading.read? (cs.length + 1) {} cs

end MarkupFilter.Pattern
