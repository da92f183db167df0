import MarkupFilter.Pattern.Anchor
import MarkupFilter.Pattern.CharClass

/-!
# Regular expressions

The expressions that patterns on attribute values are read into. They are built from literal texts,
sets of characters and anchors; which of several matches is preferred has no place in them, since
only the existence of a match is ever asked for.

Expressions are put together by `concatAll`, `eitherAll`, `repeated` and `ofSet`, which bring them
into a normal form: neighbouring literals are one literal, concatenations and alternatives are not
nested in their own kind, alternative characters are a set, and what alternatives have in common at
their start is taken out of them.

## Main definitions

* `Expression` — regular expressions.
* `Expression.Matches` — the spans of a text that an expression describes.
* `Expression.minLength`, `Expression.maxLength` — bounds on the length of such a span.
* `Expression.concatAll`, `eitherAll`, `repeated`, `ofSet` — the expressions in normal form.
-/

set_option autoImplicit false

namespace MarkupFilter.Pattern

/-- A regular expression. -/
inductive Expression where
  /-- The characters of a text, one after the other. -/
  | literal (text : List Char)
  /-- One character of a set. -/
  | chars (set : CharClass)
  /-- Nothing, at a place that satisfies a condition. -/
  | anchor (a : Anchor)
  /-- An expression that is a group with a number of its own. -/
  | group (number : Nat) (body : Expression)
  /-- At least `min` times, and at most `max` times if there is a bound. -/
  | times (body : Expression) (min : Nat) (max : Option Nat)
  /-- All of the expressions, one after the other. -/
  | concat (items : List Expression)
  /-- Any one of the expressions. -/
  | either (alternatives : List Expression)

namespace Expression

/-! ## Meaning -/

/-- `Matches text e i j`: the expression `e` describes the span of `text` from place `i` to place
`j`. The context counts only for anchors. -/
inductive Matches (text : List Char) : Expression → Nat → Nat → Prop
  | literal (cs : List Char) (i : Nat) :
      i ≤ text.length → cs <+: text.drop i → Matches text (.literal cs) i (i + cs.length)
  | chars (set : CharClass) (i : Nat) (c : Char) :
      text[i]? = some c → set.contains c = true → Matches text (.chars set) i (i + 1)
  | anchor (a : Anchor) (i : Nat) :
      i ≤ text.length → a.holds (.ofIndex text i) = true → Matches text (.anchor a) i i
  | group (number : Nat) (body : Expression) (i j : Nat) :
      Matches text body i j → Matches text (.group number body) i j
  | concat_nil (i : Nat) : i ≤ text.length → Matches text (.concat []) i i
  | concat_cons (e : Expression) (es : List Expression) (i j k : Nat) :
      Matches text e i j → Matches text (.concat es) j k → Matches text (.concat (e :: es)) i k
  | either (es : List Expression) (e : Expression) (i j : Nat) :
      e ∈ es → Matches text e i j → Matches text (.either es) i j
  | times_none (body : Expression) (max : Option Nat) (i : Nat) :
      i ≤ text.length → Matches text (.times body 0 max) i i
  | times_required (body : Expression) (min : Nat) (max : Option Nat) (i j k : Nat) :
      Matches text body i j → Matches text (.times body min max) j k →
        Matches text (.times body (min + 1) (max.map (· + 1))) i k
  | times_further (body : Expression) (i j k : Nat) :
      Matches text body i j → Matches text (.times body 0 none) j k →
        Matches text (.times body 0 none) i k
  | times_allowed (body : Expression) (max i j k : Nat) :
      Matches text body i j → Matches text (.times body 0 (some max)) j k →
        Matches text (.times body 0 (some (max + 1))) i k

/-! ## Equality -/

mutual

/-- Whether two expressions are built alike. -/
def same : Expression → Expression → Bool
  | .literal a, .literal b => a == b
  | .chars s, .chars t => s == t
  | .anchor a, .anchor b => a == b
  | .group m a, .group n b => m == n && same a b
  | .times a m x, .times b n y => m == n && x == y && same a b
  | .concat as, .concat bs => sameAll as bs
  | .either as, .either bs => sameAll as bs
  | _, _ => false

/-- Whether two lists of expressions are alike one by one. -/
def sameAll : List Expression → List Expression → Bool
  | [], [] => true
  | a :: as, b :: bs => same a b && sameAll as bs
  | _, _ => false

end

/-! ## Lengths -/

mutual

/-- A number of characters that every match has at least, or none if there can be no match. -/
def minLength : Expression → Option Nat
  | .literal cs => some cs.length
  | .chars s => if s.isEmpty then none else some 1
  | .anchor _ => some 0
  | .group _ body => body.minLength
  | .times body min _ => body.minLength.map (· * min)
  | .concat es => minLengthOfAll 0 es
  | .either es => minLengthOfAny none es

/-- The number for a row of expressions after one that has `sum`. -/
def minLengthOfAll (sum : Nat) : List Expression → Option Nat
  | [] => some sum
  | e :: es =>
    match e.minLength with
    | some n => minLengthOfAll (sum + n) es
    | none => none

/-- The number for alternatives beside others that have `least`. It is given only if each of them
has one. -/
def minLengthOfAny (least : Option Nat) : List Expression → Option Nat
  | [] => least
  | e :: es =>
    match e.minLength with
    | some n => minLengthOfAny (some ((least.map (min n)).getD n)) es
    | none => none

end

mutual

/-- A number of characters that no match exceeds, if there is one that follows from the form of the
expression. -/
def maxLength : Expression → Option Nat
  | .literal cs => some cs.length
  | .chars s => if s.isEmpty then none else some 1
  | .anchor _ => some 0
  | .group _ body => body.maxLength
  | .times body _ max =>
    match max with
    | some max => body.maxLength.map (· * max)
    | none => none
  | .concat es => maxLengthOfAll 0 es
  | .either es => maxLengthOfAny none es

/-- The number for a row of expressions after one that has `sum`. -/
def maxLengthOfAll (sum : Nat) : List Expression → Option Nat
  | [] => some sum
  | e :: es =>
    match e.maxLength with
    | some n => maxLengthOfAll (sum + n) es
    | none => none

/-- The number for alternatives beside others that have `most`. -/
def maxLengthOfAny (most : Option Nat) : List Expression → Option Nat
  | [] => most
  | e :: es =>
    match e.maxLength with
    | some n => maxLengthOfAny (some ((most.map (max n)).getD n)) es
    | none => none

end

/-! ## Normal form -/

/-- The empty text. -/
def empty : Expression := .literal []

/-- No text. -/
def never : Expression := .chars .empty

/-- One character of a set. -/
def ofSet (s : CharClass) : Expression :=
  match s.single? with
  | some c => .literal [c]
  | none => .chars s

/-- Counts of zero and of exactly one leave no repetition, and an expression that takes no
characters is matched at most once. -/
def repeated (body : Expression) (min : Nat) (max : Option Nat) : Expression :=
  let unmoved := body.maxLength = some 0
  let min := if unmoved then Min.min min 1 else min
  let max := if unmoved then some (Min.min (max.getD 1) 1) else max
  if max = some 0 then empty
  else if min = 1 && max = some 1 then body
  else .times body min max

/-- The expressions that `e` is a concatenation of. -/
def items : Expression → List Expression
  | .concat es => es
  | e => [e]

/-- The finished items, the last one first, after the literal that was being collected, whose last
character is first. -/
def finishLiteral (collected : List Char) (done : List Expression) : List Expression :=
  if collected.isEmpty then done else .literal collected.reverse :: done

/-- Joins literals that are neighbours in a row. -/
def joinLiterals (collected : List Char) (done : List Expression) :
    List Expression → List Expression
  | [] => (finishLiteral collected done).reverse
  | .literal cs :: es => joinLiterals (cs.reverseAux collected) done es
  | e :: es => joinLiterals [] (e :: finishLiteral collected done) es

/-- One expression after the other. -/
def concatAll (es : List Expression) : Expression :=
  match joinLiterals [] [] (es.flatMap items) with
  | [] => empty
  | [e] => e
  | es => .concat es

/-- The expressions that `e` has to choose from. -/
def alternatives : Expression → List Expression
  | .either es => es
  | e => [e]

/-- The character that the expression is, if it is one. -/
def char? : Expression → Option Char
  | .literal [c] => some c
  | _ => none

/-- The set that the expression is, if it is one. -/
def set? : Expression → Option CharClass
  | .chars s => some s
  | _ => none

/-- The items of a concatenation; others have none. -/
def concatItems : Expression → List Expression
  | .concat es => es
  | _ => []

/-- The items that two rows have in common at their start. -/
def commonStart : List Expression → List Expression → List Expression
  | a :: as, b :: bs => if same a b then a :: commonStart as bs else []
  | _, _ => []

/-- What concatenations have in common at their start, and what is left of each. -/
def takeCommon? (es : List Expression) : Option (List Expression × List Expression) :=
  match es.map concatItems with
  | first :: others =>
    let common := others.foldl commonStart first
    if common.isEmpty then none
    else some (common, es.map fun e => concatAll (e.concatItems.drop common.length))
  | [] => none

/-- Any one of the expressions; the common start of alternatives is taken out of them at most as
often as `depth` says. -/
def eitherFrom (depth : Nat) (es : List Expression) : Expression :=
  match es.flatMap alternatives with
  | [] => never
  | [e] => e
  | es =>
    match es.mapM char?, es.mapM set? with
    | some cs, _ => ofSet (.ofChars cs)
    | none, some ss => ofSet (.unionAll ss)
    | none, none =>
      match depth, takeCommon? es with
      | depth + 1, some (common, rests) => concatAll (common ++ [eitherFrom depth rests])
      | _, _ => .either es

/-- How deep expressions may be nested. -/
def nestLimit : Nat := 250

/-- Any one of the expressions. -/
def eitherAll (es : List Expression) : Expression :=
  eitherFrom nestLimit es

end Expression

end MarkupFilter.Pattern
