import MarkupFilter.Text.Printable

/-!
# Quoted text in messages

A message shows a character or a text between quotes, with everything escaped that could not be
told apart by eye.

## Main definitions

* `Quoted.char` — a character in single quotes.
* `Quoted.text` — a text in double quotes.
-/

set_option autoImplicit false

namespace MarkupFilter.Quoted

/-- `c` within quotes of the kind `quote`: a backslash before a backslash and before that quote,
letters for tab, line feed, carriage return and the null character, and the code point of what
cannot be shown. -/
def escape (quote c : Char) : List Char :=
  if c = '\x00' then ['\\', '0']
  else if c = '\t' then ['\\', 't']
  else if c = '\n' then ['\\', 'n']
  else if c = '\r' then ['\\', 'r']
  else if c = '\\' || c = quote then ['\\', c]
  else if Printable.isPrintable c then [c]
  else ['\\', 'u', '\x7b'] ++ Nat.toDigits 16 c.toNat ++ ['\x7d']

/-- `c` in single quotes. -/
def char (c : Char) : String :=
  String.ofList (['\''] ++ escape '\'' c ++ ['\''])

/-- `s` in double quotes. -/
def text (s : String) : String :=
  String.ofList (['"'] ++ s.toList.flatMap (escape '"') ++ ['"'])

end MarkupFilter.Quoted
