import MarkupFilter.Grammar.Basic
import MarkupFilter.Grammar.SearchMemo

/-!
# Matching rules

Matching as it is run. Three things keep it from reading the same text over and over: searches for
the right operand of a difference are remembered, a literal is searched for as a text, and a
sequence in which `a - b` is followed by `b` fails at once when there is no `b` left.

## Main definitions

* `Rule.run` — the match of a rule, given what names match.
* `Grammar.matchWith` — the match of a named rule, given what is remembered.
* `Grammar.tokenize` — the match of a named rule at the start of a text.
-/

set_option autoImplicit false

namespace MarkupFilter.Grammar

/-- A computation that remembers searches. -/
abbrev Remembering (α : Type) : Type := StateM SearchMemo α

/-! ## Repetition -/

/-- Matches `once` again and again from `w` on, at most `fuel` times, after `count` matches of
`length` characters with the given tokens in reverse. A match of nothing counts but is the last.
The result is the count and what was matched. -/
def runRepeated (once : Window → Remembering (Option Match)) :
    Nat → Nat → Nat → List Token → Window → Remembering (Nat × Match)
  | 0, count, length, tokens, _ => pure (count, ⟨length, tokens.reverse⟩)
  | fuel + 1, count, length, tokens, w => do
    match ← once w with
    | none => return (count, ⟨length, tokens.reverse⟩)
    | some m =>
      let tokens := m.tokens.reverse ++ tokens
      if m.length = 0 then return (count + 1, ⟨length, tokens.reverse⟩)
      else runRepeated once fuel (count + 1) (length + m.length) tokens (w.drop m.length)

/-- The match of one step under a quantifier. -/
def Quantifier.run (q : Quantifier) (once : Window → Remembering (Option Match)) (w : Window) :
    Remembering (Option Match) :=
  match q with
  | .one => once w
  | .optional => do return some ((← once w).getD .empty)
  | .zeroOrMore => do return some (← runRepeated once (w.size + 1) 0 0 [] w).2
  | .oneOrMore => do
    let (count, m) ← runRepeated once (w.size + 1) 0 0 [] w
    return if count = 0 then none else some m

/-! ## Searches -/

/-- The first place where the literal `text` stands within the `size` characters of `input` from
`place` on. -/
def literalPlace? (input : IndexedText) (text : List Char) : (size place : Nat) → Option Nat
  | 0, place => if text.isEmpty then some place else none
  | size + 1, place =>
    if input.hasAt text place && text.length ≤ size + 1 then some place
    else literalPlace? input text size (place + 1)

/-- The first of the next `n` places from `w` on where `once` matches. -/
def scanFrom (once : Window → Remembering (Option Match)) :
    Nat → Window → Remembering (Option Nat)
  | 0, _ => pure none
  | n + 1, w => do
    match ← once w with
    | some _ => return some w.place
    | none => scanFrom once n (w.drop 1)

/-- The first place in `w` where `rule` matches; `once` is its match. -/
def scan (rule : Rule) (once : Window → Remembering (Option Match)) (w : Window) :
    Remembering (Option Nat) :=
  match rule with
  | .literal .one text => pure (literalPlace? w.input text w.size w.place)
  | _ => scanFrom once w.size w

/-- The first place in `w` where `rule` matches, remembered or searched for. -/
def nearest (rule : Rule) (once : Window → Remembering (Option Match)) (w : Window) :
    Remembering (Option Nat) := do
  match (← get).find? rule w with
  | some found => return found
  | none =>
    let found ← scan rule once w
    modify fun memo => memo.record rule w found
    return found

/-! ## Rules -/

/-- The `b` of a rule that is `a - b`, or that refers to such a rule by name. -/
def excluded? (g : Grammar) : Rule → Option Rule
  | .reference _ name => (g.rule? name).bind Rule.subtrahend?
  | rule => rule.subtrahend?

/-- Whether `item` and `next`, one after the other, cannot match `w` because `item` is `a - b` and
`next` is that `b`, which stands nowhere in `w`. What `item` matches ends in `w` or at its limit,
so only a `b` at the limit is left to try, where there is nothing to read; `once` is the match of
`next`. -/
def unterminated (g : Grammar) (item next : Rule) (once : Window → Remembering (Option Match))
    (w : Window) : Remembering Bool :=
  match g.excluded? item with
  | none => pure false
  | some right =>
    if right.same next then do
      match ← nearest next once w with
      | some _ => return false
      | none => return (← once .nothing).isNone
    else pure false

mutual

/-- The match of a rule at the start of a window, where `call` is the match of the body of a named
rule of `g`. -/
def Rule.run (g : Grammar) (call : String → Window → Remembering (Option Match)) :
    Rule → Window → Remembering (Option Match)
  | .literal q text, w => q.run (fun w => pure (w.literal? text)) w
  | .charSet q set, w => q.run (fun w => pure (w.char? set.contains)) w
  | .charCode q code, w => q.run (fun w => pure (w.char? (· == code))) w
  | .sequence q items, w => q.run (fun w => Rule.runAll g call items w) w
  | .choice q alternatives, w => q.run (fun w => Rule.runFirst g call alternatives w) w
  | .difference q left right, w =>
    q.run (fun w => do
      match ← nearest right (fun w => Rule.run g call right w) w with
      | some place => Rule.run g call left (w.upTo place)
      | none => Rule.run g call left w) w
  | .reference q name, w =>
    q.run (fun w => do return (← call name w).map fun m => m.named name w) w

/-- The match of all items one after the other. -/
def Rule.runAll (g : Grammar) (call : String → Window → Remembering (Option Match)) :
    List Rule → Window → Remembering (Option Match)
  | [], _ => pure (some .empty)
  | [item], w => Rule.run g call item w
  | item :: next :: rest, w => do
    if ← unterminated g item next (fun w => Rule.run g call next w) w then
      return none
    match ← Rule.run g call item w with
    | none => return none
    | some m => return (← Rule.runAll g call (next :: rest) (w.drop m.length)).map m.append

/-- The match of the first alternative that has one. -/
def Rule.runFirst (g : Grammar) (call : String → Window → Remembering (Option Match)) :
    List Rule → Window → Remembering (Option Match)
  | [], _ => pure none
  | alternative :: rest, w => do
    match ← Rule.run g call alternative w with
    | none => Rule.runFirst g call rest w
    | some m => return some m

end

/-! ## Grammars -/

/-- The match of the body of a named rule, with references followed to the given depth. -/
def runBody (g : Grammar) : Nat → String → Window → Remembering (Option Match)
  | 0, _, _ => pure none
  | depth + 1, name, w =>
    match g.rule? name with
    | none => pure none
    | some rule => rule.run g (g.runBody depth) w

/-- The match of the rule `name` at the start of a window, as a token of that name even if the
rule is silent, with the searches remembered so far. -/
def matchWith (g : Grammar) (name : String) (w : Window) : Remembering (Option Token) := do
  return (← g.runBody (g.depthBound w) name w).map fun m => m.toToken name w

/-- The match of the rule `name` at the start of a window. -/
def matchAt (g : Grammar) (name : String) (w : Window) : Option Token :=
  ((g.matchWith name w).run {}).1

/-- The match of the rule `start` at the start of `input`. It may leave the end of the input
unread. -/
def tokenize (g : Grammar) (start input : String) : Except GrammarError (Option Token) :=
  if g.defines start then .ok (g.matchAt start (.whole input.toList))
  else .error (.unknownStartRule start)

end MarkupFilter.Grammar
