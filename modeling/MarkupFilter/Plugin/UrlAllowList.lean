import MarkupFilter.Text.AsciiCase
import MarkupFilter.Text.Blank

/-!
# Allowed addresses

Content from an allowed address may use the network freely.

## Main definitions

* `UrlAllowList` — a set of addresses.
* `UrlAllowList.nothing`, `UrlAllowList.startingWith` — no address, and addresses by how they
  start.
-/

set_option autoImplicit false

namespace MarkupFilter

/-- A set of addresses. -/
structure UrlAllowList where
  allows : String → Bool

namespace UrlAllowList

/-- The empty set. -/
def nothing : UrlAllowList := ⟨fun _ => false⟩

/-- The addresses that start with one of the texts in `starts`, letter case and blanks at either
end of the address aside. -/
def startingWith (starts : List String) : UrlAllowList :=
  let starts := starts.map AsciiCase.lower
  ⟨fun url =>
    let url := (AsciiCase.lower (Blank.trim url)).toList
    starts.any fun s => s.toList.isPrefixOf url⟩

end UrlAllowList

end MarkupFilter
