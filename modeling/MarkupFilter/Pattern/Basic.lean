import MarkupFilter.Pattern.Reader
import MarkupFilter.Pattern.StateMemo
import MarkupFilter.Pattern.Storage

/-!
# Patterns on values

## Main definitions

* `Pattern.compile?` — the pattern written by a text, which may match anywhere in a value.
* `Pattern.compileWhole?` — the same pattern, which must match the whole value.
* `Pattern.occursIn` — whether a value has a match.
-/

set_option autoImplicit false

namespace MarkupFilter

/-- A pattern as written, as read and as made ready for searching. -/
structure Pattern where
  source : String
  expression : Pattern.Expression
  machine : Pattern.Machine := .ofExpression expression
  machine_eq : machine = .ofExpression expression := by rfl

namespace Pattern

/-- The pattern written by `source`, unless it is malformed or too large. -/
def compile? (source : String) : Option Pattern :=
  match Expression.read? source with
  | some expression => if expression.fits then some { source, expression } else none
  | none => none

/-- The pattern written by `source` between anchors, in a group of its own. The anchors are put
around the text, so it is their common form that has to be well formed. -/
def compileWhole? (source : String) : Option Pattern :=
  compile? ("^(?:" ++ source ++ ")$")

/-- Whether the pattern matches a part of `value`. -/
def occursIn (p : Pattern) (value : String) : Bool :=
  p.machine.occursIn value.toList

end Pattern

end MarkupFilter
