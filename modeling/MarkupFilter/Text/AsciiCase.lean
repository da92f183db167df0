/-!
# ASCII letter case

Names of elements, attributes and rules are compared without regard to the case of ASCII
letters. All other characters, accented letters among them, are compared as they stand.

## Main definitions

* `AsciiCase.lower`, `AsciiCase.upper` — a text with its ASCII letters in one case.
* `AsciiCase.same` — equality of two texts up to the case of ASCII letters.
-/

set_option autoImplicit false

namespace MarkupFilter.AsciiCase

/-- `s` with every ASCII capital letter replaced by its small letter. -/
def lower (s : String) : String :=
  String.ofList (s.toList.map Char.toLower)

/-- `s` with every ASCII small letter replaced by its capital letter. -/
def upper (s : String) : String :=
  String.ofList (s.toList.map Char.toUpper)

/-- Two texts are the same name when they agree up to the case of ASCII letters. -/
def same (a b : String) : Bool :=
  lower a == lower b

/-- The characters of a lowered text. -/
@[simp] theorem toList_lower (s : String) : (lower s).toList = s.toList.map Char.toLower := by
  simp [lower]

/-- Being the same name means having the same lowered text. -/
theorem same_iff (a b : String) : same a b = true ↔ lower a = lower b := by
  simp [same]

end MarkupFilter.AsciiCase
