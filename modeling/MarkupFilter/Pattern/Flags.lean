import MarkupFilter.Pattern.CharClass
import MarkupFilter.Text.Blank
import MarkupFilter.Text.WordCharacter

/-!
# Flags of patterns

Flags decide what the constructs of a pattern mean. They are set by letters in parentheses and hold
until their group ends.

## Main definitions

* `Flags` — the flags in force at a place of a pattern.
* `Flags.read?` — the flags after a row of letters.
* `Flags.skip` — the pattern without the blanks and comments that do not count under the flags.
* `Flags.fold`, `Flags.negate?` — sets of characters under the flags.
-/

set_option autoImplicit false

namespace MarkupFilter.Pattern

/-- The flags in force at a place of a pattern. -/
structure Flags where
  /-- `i`: letter case does not count. -/
  foldCase : Bool := false
  /-- `s`: the full stop takes line feeds too. -/
  dotAll : Bool := false
  /-- `m`: anchors also hold at the ends of lines. -/
  lines : Bool := false
  /-- `R`: lines may end with carriage returns too. -/
  anyLines : Bool := false
  /-- `u`: sets may hold characters outside ASCII. -/
  unicode : Bool := true
  /-- `x`: blanks and comments in the pattern do not count. -/
  verbose : Bool := false
  deriving DecidableEq, Repr

namespace Flags

/-! ## Letters -/

/-- One flag switched on or off; greed (`U`) makes no difference to whether a pattern matches. -/
def set? (flags : Flags) (letter : Char) (on : Bool) : Option Flags :=
  if letter = 'i' then some { flags with foldCase := on }
  else if letter = 's' then some { flags with dotAll := on }
  else if letter = 'm' then some { flags with lines := on }
  else if letter = 'R' then some { flags with anyLines := on }
  else if letter = 'u' then some { flags with unicode := on }
  else if letter = 'x' then some { flags with verbose := on }
  else if letter = 'U' then some flags
  else none

/-- What a row of flag letters ends with. -/
inductive Ending where
  /-- A closing parenthesis: the flags hold for the rest of the enclosing group. -/
  | directive
  /-- A colon: a group follows, in which the flags hold. -/
  | group
  deriving DecidableEq, Repr

/-- Reads flag letters up to `:` or `)`. `on` is false after the dash, and `seen` holds the letters
and the dash so far, of which none may come twice. A directive has at least one letter, and the
dash is not the last. -/
def read? (on : Bool) (seen : List Char) (flags : Flags) :
    List Char → Option (Flags × Ending × List Char)
  | [] => none
  | c :: rest =>
    if c = ':' then
      if seen.head? = some '-' then none else some (flags, .group, rest)
    else if c = ')' then
      if seen.head? = some '-' || seen.isEmpty then none else some (flags, .directive, rest)
    else if seen.contains c then none
    else if c = '-' then read? false (c :: seen) flags rest
    else match flags.set? c on with
      | some flags => read? on (c :: seen) flags rest
      | none => none

/-! ## Blanks and comments -/

/-- The text after the blanks and comments at its start; a comment goes from `#` to the end of the
line. `comment` says whether the text starts in one. -/
def afterBlanks (comment : Bool) : List Char → List Char
  | [] => []
  | c :: rest =>
    if comment then afterBlanks (c != '\n') rest
    else if Blank.isBlank c then afterBlanks false rest
    else if c = '#' then afterBlanks true rest
    else c :: rest

/-- The text after the blanks and comments that do not count. -/
def skip (flags : Flags) (cs : List Char) : List Char :=
  if flags.verbose then afterBlanks false cs else cs

/-- The character that a dash in a set is taken to stand before. Where blanks do not count, neither
does one number sign among them, unless there is nothing after it. -/
def afterDash (flags : Flags) (cs : List Char) : Option Char :=
  if flags.verbose then
    match cs.dropWhile Blank.isBlank with
    | [] => cs.head?
    | '#' :: rest =>
      match rest.dropWhile Blank.isBlank with
      | [] => cs.head?
      | c :: _ => some c
    | c :: _ => some c
  else cs.head?

/-! ## Sets -/

/-- Whether a set may hold `c`. -/
def allows (flags : Flags) (c : Char) : Bool :=
  flags.unicode || c.toNat < 0x80

/-- The set with all case variants, if case does not count. -/
def fold (flags : Flags) (s : CharClass) : CharClass :=
  if flags.foldCase then
    if flags.unicode then s.foldCase else s.foldAsciiCase
  else s

/-- The complement of a set. Without `u` there is none, since it would not be a set of ASCII
characters. -/
def negate? (flags : Flags) (s : CharClass) : Option CharClass :=
  if flags.unicode then some s.compl else none

end Flags

end MarkupFilter.Pattern
