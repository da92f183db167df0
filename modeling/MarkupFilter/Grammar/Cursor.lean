import MarkupFilter.Grammar.Matching

/-!
# Reading a text token by token

A cursor matches one rule again and again, each time where the last match ended. What the rule
cannot match is handed out as a last token.

## Main definitions

* `Cursor` — a place in a text, with the rule to match and the searches remembered.
* `Cursor.next?` — the next token and the cursor after it.
* `Cursor.tokens` — all tokens from a cursor on.
-/

set_option autoImplicit false

namespace MarkupFilter.Grammar

/-- The name of the token that covers what the rule of a cursor cannot match. -/
def unmatched : String := "unmatched"

/-- A place in a text at which the rule `rule` of `grammar` is matched next. -/
structure Cursor where
  grammar : Grammar
  rule : String
  window : Window
  memo : SearchMemo

namespace Cursor

/-- The place of the next token. -/
def position (c : Cursor) : Nat :=
  c.window.start

/-- The cursor after the first `n` characters of its window. -/
def advance (c : Cursor) (n : Nat) (memo : SearchMemo) : Cursor :=
  { c with window := c.window.drop n, memo := memo }

/-- The token of all that is left. -/
def remainder (c : Cursor) : Token :=
  ⟨unmatched, c.window, []⟩

/-- The next token and the cursor after it; none at the end of the text. A match of nothing counts
as no match, so every token takes a character. -/
def next? (c : Cursor) : Option (Token × Cursor) :=
  if c.window.size = 0 then none
  else
    let (token?, memo) := (c.grammar.matchWith c.rule c.window).run c.memo
    match token? with
    | some token =>
      let n := token.window.size
      if n = 0 then some (c.remainder, c.advance c.window.size memo)
      else some (token, c.advance n memo)
    | none => some (c.remainder, c.advance c.window.size memo)

/-- The next `fuel` tokens, each with the place after it. -/
def stepsFrom : Nat → Cursor → List (Token × Nat) → List (Token × Nat)
  | 0, _, done => done.reverse
  | fuel + 1, c, done =>
    match c.next? with
    | none => done.reverse
    | some (token, after) => stepsFrom fuel after ((token, after.position) :: done)

/-- All tokens from the cursor on, each with the place after it. Every token takes at least one
character of what is left. -/
def steps (c : Cursor) : List (Token × Nat) :=
  stepsFrom c.window.size c []

/-- All tokens from the cursor on. -/
def tokens (c : Cursor) : List Token :=
  c.steps.map Prod.fst

end Cursor

/-- A cursor at the start of `input` that matches the rule `rule`. -/
def cursorOf (g : Grammar) (rule : String) (input : List Char) : Cursor :=
  ⟨g, rule, .whole input, {}⟩

/-- A cursor at the start of `input`, if the grammar defines the rule. -/
def cursor (g : Grammar) (rule input : String) : Except GrammarError Cursor :=
  if g.defines rule then .ok (g.cursorOf rule input.toList)
  else .error (.unknownStartRule rule)

end MarkupFilter.Grammar
