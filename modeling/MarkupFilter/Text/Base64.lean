/-!
# Base64

The standard alphabet with mandatory padding. Decoding is strict: groups of four symbols, padding
only at the end of the last group, and no stray bits below the last byte, so each byte sequence
has exactly one accepted spelling.

## Main definitions

* `Base64.decode?` — the bytes that a text spells, if it is canonical.
* `Base64.encode` — the canonical spelling of bytes.
-/

set_option autoImplicit false

namespace MarkupFilter.Base64

/-- The six bits that a symbol of the standard alphabet stands for. -/
def symbol? (c : Char) : Option Nat :=
  if 'A' ≤ c && c ≤ 'Z' then some (c.toNat - 'A'.toNat)
  else if 'a' ≤ c && c ≤ 'z' then some (c.toNat - 'a'.toNat + 26)
  else if '0' ≤ c && c ≤ '9' then some (c.toNat - '0'.toNat + 52)
  else if c = '+' then some 62
  else if c = '/' then some 63
  else none

/-- The bytes of a last group that is padded with `==` or `=`; bits below the last byte must be
zero. -/
def padded? (a b c : Char) : Option (List Nat) :=
  match symbol? a, symbol? b with
  | some x, some y =>
    if c = '=' then
      if y % 16 = 0 then some [x * 4 + y / 16] else none
    else
      match symbol? c with
      | some z => if z % 4 = 0 then some [x * 4 + y / 16, y % 16 * 16 + z / 4] else none
      | none => none
  | _, _ => none

/-- The three bytes of a full group. -/
def full? (a b c d : Char) : Option (List Nat) :=
  match symbol? a, symbol? b, symbol? c, symbol? d with
  | some x, some y, some z, some w => some [x * 4 + y / 16, y % 16 * 16 + z / 4, z % 4 * 64 + w]
  | _, _, _, _ => none

/-- The bytes spelled by `cs`: padding may end the last group only. -/
def decode? : List Char → Option (List Nat)
  | [] => some []
  | a :: b :: c :: d :: rest =>
    if d = '=' then
      if rest.isEmpty then padded? a b c else none
    else
      match full? a b c d, decode? rest with
      | some bytes, some more => some (bytes ++ more)
      | _, _ => none
  | _ => none

/-- The symbol of the standard alphabet for six bits. -/
def symbol (n : Nat) : Char :=
  if n < 26 then Char.ofNat ('A'.toNat + n)
  else if n < 52 then Char.ofNat ('a'.toNat + (n - 26))
  else if n < 62 then Char.ofNat ('0'.toNat + (n - 52))
  else if n = 62 then '+'
  else '/'

/-- The canonical spelling of `bytes`. -/
def encode : List Nat → List Char
  | [] => []
  | [x] => [symbol (x / 4), symbol (x % 4 * 16), '=', '=']
  | [x, y] => [symbol (x / 4), symbol (x % 4 * 16 + y / 16), symbol (y % 16 * 4), '=']
  | x :: y :: z :: rest =>
    symbol (x / 4) :: symbol (x % 4 * 16 + y / 16) :: symbol (y % 16 * 4 + z / 64) ::
      symbol (z % 64) :: encode rest

end MarkupFilter.Base64
