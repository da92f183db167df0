import MarkupFilter.Grammar.Basic

/-!
# What rules match

The plain meaning of rules: ordered choice, greedy repetition, and differences that try the right
operand at one place after the other. Nothing is remembered between attempts. `Grammar.matchAt`
of `MarkupFilter.Grammar.Matching` gives the same answers without repeated searches.

## Main definitions

* `Quantifier.matches?` — repeated matching of one step.
* `Rule.matches?` — the match of a rule, given what names match.
* `Grammar.matches?` — the match of a named rule.
-/

set_option autoImplicit false

namespace MarkupFilter.Grammar

/-! ## Repetition -/

/-- The outcome of greedy repetition: how often the step matched, and what was matched. -/
structure Repetition where
  count : Nat
  found : Match

/-- Matches `once` again and again from `w` on, at most `fuel` times. A match of nothing counts
but is the last, since it would be found for ever. -/
def repeated (once : Window → Option Match) : Nat → Window → Repetition
  | 0, _ => ⟨0, .empty⟩
  | fuel + 1, w =>
    match once w with
    | none => ⟨0, .empty⟩
    | some m =>
      if m.length = 0 then ⟨1, m⟩
      else
        let more := repeated once fuel (w.drop m.length)
        ⟨more.count + 1, m.append more.found⟩

/-- The match of one step under a quantifier. A window of `n` characters is used up after `n` steps
that read something, so `n + 1` steps are enough. -/
def Quantifier.matches? (q : Quantifier) (once : Window → Option Match) (w : Window) :
    Option Match :=
  match q with
  | .one => once w
  | .optional => some ((once w).getD .empty)
  | .zeroOrMore => some (repeated once (w.size + 1) w).found
  | .oneOrMore =>
    let r := repeated once (w.size + 1) w
    if r.count = 0 then none else some r.found

/-! ## Rules -/

/-- The place of the first character of `w` at which `once` matches. -/
def nearestMatch (once : Window → Option Match) (w : Window) : Option Nat :=
  ((List.range w.size).find? fun n => (once (w.drop n)).isSome).map fun n => w.place + n

mutual

/-- The match of a rule at the start of a window, where `call` is the match of the body of a named
rule. -/
def Rule.matches? (call : String → Window → Option Match) : Rule → Window → Option Match
  | .literal q text, w => q.matches? (·.literal? text) w
  | .charSet q set, w => q.matches? (·.char? set.contains) w
  | .charCode q code, w => q.matches? (·.char? (· == code)) w
  | .sequence q items, w => q.matches? (fun w => Rule.matchesAll? call items w) w
  | .choice q alternatives, w => q.matches? (fun w => Rule.matchesFirst? call alternatives w) w
  | .difference q left right, w =>
    q.matches? (fun w =>
      match nearestMatch (fun w => Rule.matches? call right w) w with
      | some place => Rule.matches? call left (w.upTo place)
      | none => Rule.matches? call left w) w
  | .reference q name, w => q.matches? (fun w => (call name w).map (·.named name w)) w

/-- The match of all items one after the other. -/
def Rule.matchesAll? (call : String → Window → Option Match) : List Rule → Window → Option Match
  | [], _ => some .empty
  | item :: rest, w =>
    match Rule.matches? call item w with
    | none => none
    | some m => (Rule.matchesAll? call rest (w.drop m.length)).map m.append

/-- The match of the first alternative that has one. -/
def Rule.matchesFirst? (call : String → Window → Option Match) : List Rule → Window → Option Match
  | [], _ => none
  | alternative :: rest, w =>
    match Rule.matches? call alternative w with
    | none => Rule.matchesFirst? call rest w
    | some m => some m

end

/-! ## Grammars -/

/-- The match of the body of a named rule, with references followed to the given depth. -/
def bodyMatches? (g : Grammar) : Nat → String → Window → Option Match
  | 0, _, _ => none
  | depth + 1, name, w => (g.rule? name).bind fun rule => rule.matches? (g.bodyMatches? depth) w

/-- The match of the rule `name` at the start of a window, as a token of that name. -/
def matches? (g : Grammar) (name : String) (w : Window) : Option Token :=
  (g.bodyMatches? (g.depthBound w) name w).map fun m => m.toToken name w

end MarkupFilter.Grammar
