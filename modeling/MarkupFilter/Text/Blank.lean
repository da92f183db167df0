/-!
# White space

Two sets of blank characters are in use. `isBlank` is the Unicode property `White_Space`, by
which addresses are trimmed and rule text is read; `isAsciiBlank` is the set of five ASCII
characters that may be strewn into encoded data.

## Main definitions

* `isBlank`, `isAsciiBlank` — the two sets.
* `trim`, `trimEnd` — a text without the blanks at its ends.
-/

set_option autoImplicit false

namespace MarkupFilter.Blank

/-- The inclusive ranges of code points with the Unicode property `White_Space`. -/
def ranges : List (Nat × Nat) :=
  [(0x9, 0xD), (0x20, 0x20), (0x85, 0x85), (0xA0, 0xA0), (0x1680, 0x1680), (0x2000, 0x200A),
    (0x2028, 0x2029), (0x202F, 0x202F), (0x205F, 0x205F), (0x3000, 0x3000)]

/-- A character with the Unicode property `White_Space`. -/
def isBlank (c : Char) : Bool :=
  ranges.any fun (low, high) => low ≤ c.toNat && c.toNat ≤ high

/-- Space, tab, line feed, form feed or carriage return; the vertical tab is not one of them. -/
def isAsciiBlank (c : Char) : Bool :=
  c == ' ' || c == '\t' || c == '\n' || c == '\x0c' || c == '\r'

/-- `cs` without the blanks at its end. -/
def dropTrailing (cs : List Char) : List Char :=
  (cs.reverse.dropWhile isBlank).reverse

/-- `s` without the blanks at its end. -/
def trimEnd (s : String) : String :=
  String.ofList (dropTrailing s.toList)

/-- `s` without the blanks at either end. -/
def trim (s : String) : String :=
  String.ofList (dropTrailing (s.toList.dropWhile isBlank))

end MarkupFilter.Blank
