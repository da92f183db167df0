import MarkupFilter.Pattern.Anchor
import MarkupFilter.Pattern.Flags
import MarkupFilter.Text.Numeral

/-!
# Escapes in patterns

A backslash and what follows it stand for a character, a kind of characters or an anchor. A
punctuation character stands for itself; letters and digits without a meaning of their own are
refused, so there are no back-references.

## Main definitions

* `CharKind` — digits, blanks and word characters.
* `Escape` — what an escape stands for.
* `Escape.read?` — the escape at the start of a text.
-/

set_option autoImplicit false

namespace MarkupFilter.Pattern

/-! ## Kinds of characters -/

/-- A kind of characters that has an escape. -/
inductive CharKind where
  | digit
  | blank
  | word
  deriving DecidableEq, Repr

namespace CharKind

/-- All characters of a kind. -/
def set : CharKind → CharClass
  | .digit => .ofRanges WordCharacter.digits
  | .blank => .ofRanges Blank.ranges
  | .word => .ofRanges WordCharacter.wordRanges

/-- The ASCII characters of a kind. -/
def asciiSet : CharKind → CharClass
  | .digit => .ofRanges [(0x30, 0x39)]
  | .blank => .ofRanges [(0x9, 0xD), (0x20, 0x20)]
  | .word => .ofRanges [(0x30, 0x39), (0x41, 0x5A), (0x5F, 0x5F), (0x61, 0x7A)]

/-- The characters of a kind under the flags, or all others. -/
def setUnder? (kind : CharKind) (flags : Flags) (negated : Bool) : Option CharClass :=
  let s := if flags.unicode then kind.set else kind.asciiSet
  if negated then flags.negate? s else some s

end CharKind

/-! ## Escapes -/

/-- What an escape stands for. -/
inductive Escape where
  /-- A character; `byte` says whether it is written by two hexadecimal digits, by which a byte
  could be meant. -/
  | char (c : Char) (byte : Bool)
  /-- The characters of a kind, or all others. -/
  | kind (kind : CharKind) (negated : Bool)
  | anchor (a : Anchor)
  deriving DecidableEq, Repr

namespace Escape

/-- Reads exactly `count` more hexadecimal digits after those in `digits`, the last of them
first. -/
def hexDigits? (flags : Flags) (digits : List Char) :
    Nat → List Char → Option (List Char × List Char)
  | 0, cs => some (digits.reverse, cs)
  | count + 1, cs =>
    match flags.skip cs with
    | c :: rest =>
      if Numeral.isDigit 16 c then hexDigits? flags (c :: digits) count rest else none
    | [] => none

/-- Reads hexadecimal digits up to a closing brace. The fuel is at least the length of the text. -/
def bracedDigits? (flags : Flags) (digits : List Char) :
    Nat → List Char → Option (List Char × List Char)
  | 0, _ => none
  | fuel + 1, cs =>
    match flags.skip cs with
    | '\x7d' :: rest => some (digits.reverse, rest)
    | c :: rest =>
      if Numeral.isDigit 16 c then bracedDigits? flags (c :: digits) fuel rest else none
    | [] => none

/-- A character by its code point in braces, or in exactly `count` hexadecimal digits. -/
def codePoint? (flags : Flags) (fuel count : Nat) (cs : List Char) :
    Option (Escape × List Char) :=
  match flags.skip cs with
  | '\x7b' :: rest =>
    match bracedDigits? flags [] fuel rest with
    | some (digits, rest) => (Numeral.char? 16 digits).map fun c => (.char c false, rest)
    | none => none
  | cs =>
    match hexDigits? flags [] count cs with
    | some (digits, rest) => (Numeral.char? 16 digits).map fun c => (.char c (count = 2), rest)
    | none => none

/-- Whether `c` may stand in the name of an anchor. -/
def isNameChar (c : Char) : Bool :=
  c.isAlpha || c = '-'

/-- Reads the name of an anchor after the letters in `name`, the last of them first. The fuel is at
least the length of the text. -/
def anchorName (flags : Flags) (name : List Char) : Nat → List Char → List Char × List Char
  | fuel + 1, c :: rest =>
    if isNameChar c then anchorName flags (c :: name) fuel (flags.skip rest)
    else (name.reverse, c :: rest)
  | _, cs => (name.reverse, cs)

/-- The anchors that are written by a name in braces. -/
def namedAnchor? (name : List Char) : Option WordAnchor :=
  if name = "start".toList then some .wordStart
  else if name = "end".toList then some .wordEnd
  else if name = "start-half".toList then some .noneBefore
  else if name = "end-half".toList then some .noneAfter
  else none

/-- The anchor `\b`, after which a name in braces may follow; braces with something else in them
are left for a repetition. -/
def boundary? (flags : Flags) (fuel : Nat) (cs : List Char) : Option (Escape × List Char) :=
  let plain : Option (Escape × List Char) :=
    some (.anchor (.word .boundary flags.unicode), cs)
  match cs with
  | '\x7b' :: rest =>
    match flags.skip rest with
    | [] => none
    | c :: inside =>
      if isNameChar c then
        match anchorName flags [] fuel (c :: inside) with
        | (name, '\x7d' :: rest) =>
          (namedAnchor? name).map fun kind => (.anchor (.word kind flags.unicode), rest)
        | _ => none
      else plain
  | _ => plain

/-- The escape whose backslash is followed by the given text, with the text after it. The fuel is at
least the length of the text. -/
def read? (flags : Flags) (fuel : Nat) : List Char → Option (Escape × List Char)
  | [] => none
  | c :: rest =>
    if c = 'x' then codePoint? flags fuel 2 rest
    else if c = 'u' then codePoint? flags fuel 4 rest
    else if c = 'U' then codePoint? flags fuel 8 rest
    else if c = 'd' || c = 'D' then some (.kind .digit (c = 'D'), rest)
    else if c = 's' || c = 'S' then some (.kind .blank (c = 'S'), rest)
    else if c = 'w' || c = 'W' then some (.kind .word (c = 'W'), rest)
    else if c = 'a' then some (.char '\x07' false, rest)
    else if c = 'f' then some (.char '\x0c' false, rest)
    else if c = 't' then some (.char '\t' false, rest)
    else if c = 'n' then some (.char '\n' false, rest)
    else if c = 'r' then some (.char '\r' false, rest)
    else if c = 'v' then some (.char '\x0b' false, rest)
    else if c = 'A' then some (.anchor .textStart, rest)
    else if c = 'z' then some (.anchor .textEnd, rest)
    else if c = 'b' then boundary? flags fuel rest
    else if c = 'B' then some (.anchor (.word .noBoundary flags.unicode), rest)
    else if c = '<' then some (.anchor (.word .wordStart flags.unicode), rest)
    else if c = '>' then some (.anchor (.word .wordEnd flags.unicode), rest)
    else if c.toNat < 0x80 && !c.isAlphanum then some (.char c false, rest)
    else none

end Escape

end MarkupFilter.Pattern
