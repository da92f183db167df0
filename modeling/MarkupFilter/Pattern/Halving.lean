/-!
# Combining in pairs

Many values are combined fastest two by two, since then none of them takes part more often than the
number of values can be halved.

## Main definitions

* `Halving.combine` — all values of a list combined.
-/

set_option autoImplicit false

namespace MarkupFilter.Pattern.Halving

variable {α : Type}

/-- Each two neighbours of a list combined, the last ones first and before `done`. -/
def pairs (op : α → α → α) (done : List α) : List α → List α
  | [] => done
  | [a] => a :: done
  | a :: b :: rest => pairs op (op a b :: done) rest

/-- Combines neighbours until one value is left; the fuel is the length of the list. -/
def combineFrom (op : α → α → α) (none : α) : Nat → List α → α
  | _, [] => none
  | _, [a] => a
  | 0, a :: _ => a
  | fuel + 1, as => combineFrom op none fuel (pairs op [] as)

/-- All values of a list combined by `op`, for which their order must not matter, or `none` if there
is no value. -/
def combine (op : α → α → α) (none : α) (as : List α) : α :=
  combineFrom op none as.length as

end MarkupFilter.Pattern.Halving
