import MarkupFilter.Grammar.Token
import MarkupFilter.Grammar.Rule

/-!
# Remembered searches

Matching `a - b` searches for the nearest `b`. The answer found from one place also answers later
questions up to the place found, so a row of openers without a closer is searched only once. What
is remembered holds for one grammar and one text.

## Main definitions

* `SearchMemo` — for a rule and a limit, where a search began and what it found.
* `SearchMemo.find?` — the answer to a search that follows from what is remembered.
* `SearchMemo.record` — remember one more search.
-/

set_option autoImplicit false

namespace MarkupFilter.Grammar

/-- A search for `rule` in the text up to `limit`: it began at `place`, and `found` is the first
place of a match at or after it. -/
structure SearchEntry where
  rule : Rule
  limit : Nat
  place : Nat
  found : Option Nat

/-- The last search for each rule and limit, latest first. -/
structure SearchMemo where
  entries : List SearchEntry := []

namespace SearchMemo

/-- The entry for a rule and a limit. -/
def entry? (memo : SearchMemo) (rule : Rule) (limit : Nat) : Option SearchEntry :=
  memo.entries.find? fun e => e.limit == limit && e.rule.same rule

/-- The first place in `w` at which `rule` matches, if it follows from an earlier search: one that
began no later and found nothing before `w`. -/
def find? (memo : SearchMemo) (rule : Rule) (w : Window) : Option (Option Nat) :=
  match memo.entry? rule w.limit with
  | none => none
  | some e =>
    if e.place ≤ w.place then
      match e.found with
      | none => some none
      | some place => if w.place ≤ place then some (some place) else none
    else none

/-- The memo after a search of `w` for `rule` that found `found`. Searches up to a limit that lies
before `w` are forgotten, since a window that starts in `w` cannot end there. -/
def record (memo : SearchMemo) (rule : Rule) (w : Window) (found : Option Nat) : SearchMemo :=
  ⟨⟨rule, w.limit, w.place, found⟩ ::
    memo.entries.filter fun e =>
      w.place ≤ e.limit && !(e.limit == w.limit && e.rule.same rule)⟩

end SearchMemo

end MarkupFilter.Grammar
