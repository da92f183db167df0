import MarkupFilter.Filter.Basic

/-!
# Filters by name

Filters for several policies are built when they are first needed and kept under a name.

## Main definitions

* `FilterStore` — filters by name.
* `FilterStore.getOrBuild` — the filter of a name, built if it is not there.
-/

set_option autoImplicit false

namespace MarkupFilter

/-- Filters by name. Case counts. -/
structure FilterStore where
  entries : List (String × Filter) := []

namespace FilterStore

/-- The filter of a name. -/
def get? (s : FilterStore) (key : String) : Option Filter :=
  s.entries.lookup key

/-- The number of filters. -/
def size (s : FilterStore) : Nat :=
  s.entries.length

/-- The filter of a name and the store in which it is kept. It is built only if it is not there,
and a failure to build it leaves the store as it was. -/
def getOrBuild (s : FilterStore) (key : String) (build : Unit → Except PolicyError Filter) :
    Except PolicyError (Filter × FilterStore) :=
  match s.get? key with
  | some f => .ok (f, s)
  | none => (build ()).map fun f => (f, ⟨(key, f) :: s.entries⟩)

end FilterStore

end MarkupFilter
