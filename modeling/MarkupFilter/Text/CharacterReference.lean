import MarkupFilter.Text.Numeral

/-!
# Character references

Five characters have a meaning in markup and are written as references where they are meant as
text: `&`, `<`, `>` and the two quotes. Reading accepts more than writing produces: decimal and
hexadecimal numbers, with or without the closing semicolon, and nine names, always with it. What
is no reference stays as it is.

## Main definitions

* `CharacterReference.escape` — write the five characters as references.
* `CharacterReference.unescape` — read every reference.
* `CharacterReference.escapeAngles` — write only `<` and `>` as references.
-/

set_option autoImplicit false

namespace MarkupFilter.CharacterReference

/-! ## Writing -/

/-- `c` as text in markup: the five special characters become references. -/
def escapeChar : Char → List Char
  | '&' => ['&', 'a', 'm', 'p', ';']
  | '<' => ['&', 'l', 't', ';']
  | '>' => ['&', 'g', 't', ';']
  | '"' => ['&', 'q', 'u', 'o', 't', ';']
  | '\'' => ['&', '#', '3', '9', ';']
  | c => [c]

/-- `s` with the five special characters written as references. -/
def escape (s : String) : String :=
  String.ofList (s.toList.flatMap escapeChar)

/-- `c` as text that opens and closes no tag. -/
def escapeAngle : Char → List Char
  | '<' => ['&', 'l', 't', ';']
  | '>' => ['&', 'g', 't', ';']
  | c => [c]

/-- `s` with its angle brackets written as references. -/
def escapeAngles (s : String) : String :=
  String.ofList (s.toList.flatMap escapeAngle)

/-! ## Reading -/

/-- The names that may stand between `&` and `;`, in this very case. -/
def named : List (List Char × Char) :=
  [(['a', 'm', 'p'], '&'), (['l', 't'], '<'), (['g', 't'], '>'), (['q', 'u', 'o', 't'], '"'),
    (['a', 'p', 'o', 's'], '\''), (['n', 'b', 's', 'p'], Char.ofNat 0xA0),
    (['c', 'o', 'l', 'o', 'n'], ':'), (['t', 'a', 'b'], '\t'),
    (['n', 'e', 'w', 'l', 'i', 'n', 'e'], '\n')]

/-- A number after `&#`: its digits start after `skipped` more characters and may be followed by
a semicolon. The count is that of all characters after the `&`. -/
def numeric? (base skipped : Nat) (cs : List Char) : Option (Char × Nat) :=
  let digits := Numeral.leading base cs
  match Numeral.char? base digits with
  | none => none
  | some c =>
    let semicolon := if (cs.drop digits.length).head? = some ';' then 1 else 0
    some (c, 1 + skipped + digits.length + semicolon)

/-- The reference that the text after an `&` starts with: the character it stands for and the
number of characters it takes after the `&`. -/
def reference? : List Char → Option (Char × Nat)
  | '#' :: 'x' :: rest => numeric? 16 1 rest
  | '#' :: 'X' :: rest => numeric? 16 1 rest
  | '#' :: rest => numeric? 10 0 rest
  | rest => named.findSome? fun (name, c) =>
      if (name ++ [';']).isPrefixOf rest then some (c, name.length + 1) else none

/-- Reads the references of a text of which the first `skip` characters belong to a reference
that is already read. -/
def decodeFrom : Nat → List Char → List Char
  | _, [] => []
  | skip + 1, _ :: rest => decodeFrom skip rest
  | 0, c :: rest =>
    if c = '&' then
      match reference? rest with
      | some (decoded, length) => decoded :: decodeFrom length rest
      | none => c :: decodeFrom 0 rest
    else c :: decodeFrom 0 rest

/-- `s` with each reference replaced by the character it stands for. The result is not read
again, so `&amp;lt;` becomes `&lt;`. -/
def unescape (s : String) : String :=
  String.ofList (decodeFrom 0 s.toList)

end MarkupFilter.CharacterReference
