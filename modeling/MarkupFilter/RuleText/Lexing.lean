import MarkupFilter.Grammar.Error
import MarkupFilter.Text.Blank
import MarkupFilter.Text.Numeral
import MarkupFilter.Text.Utf8

/-!
# Reading lexemes

Each lexeme, blank or comment is read from the text at its place and says how many characters it
takes; the reader then skips that many. The first fault in the text is reported.

## Main definitions

* `RuleText.lexemes` — the lexemes of a text.
-/

set_option autoImplicit false

namespace MarkupFilter.RuleText

open Grammar

/-! ## Pieces of lexemes -/

/-- The character whose code point follows `#x`, with the number of its digits. A code point that
is missing or is no character is reported at `offset`. -/
def codePoint (offset : Nat) (cs : List Char) : Except GrammarError (Char × Nat) :=
  let digits := Numeral.leading 16 cs
  match Numeral.char? 16 digits with
  | some c => .ok (c, digits.length)
  | none => .error (.invalidCharCode offset)

/-- The text up to the closing `quote`. -/
def quoted? (quote : Char) : List Char → Option (List Char)
  | [] => none
  | c :: rest => if c = quote then some [] else (quoted? quote rest).map (c :: ·)

/-- The number of characters up to and including `*/`. -/
def commentLength? : List Char → Option Nat
  | '*' :: '/' :: _ => some 2
  | _ :: rest => (commentLength? rest).map (· + 1)
  | [] => none

/-! ## Sets of characters -/

/-- One character of a set, literally or by its code point, with the number of characters it
takes. A faulty code point is reported at its digits, whose place follows from `offset`, the place
of `cs`. -/
def setChar (offset : Nat) : List Char → Except GrammarError (Char × Nat)
  | '#' :: 'x' :: digits => do
    let (c, n) ← codePoint (offset + 2) digits
    return (c, n + 2)
  | c :: _ => .ok (c, 1)
  | [] => .error (.unterminatedCharClass offset)

/-- A range of characters or a single one, with the number of characters it takes. A dash before
the closing bracket, or at the end of the text, makes no range. -/
def setRange (offset : Nat) (cs : List Char) : Except GrammarError ((Char × Char) × Nat) := do
  let (low, n) ← setChar offset cs
  match cs.drop n with
  | '-' :: next :: rest =>
    if next = ']' then return ((low, low), n)
    else
      let (high, m) ← setChar (offset + Utf8.size (cs.take (n + 1))) (next :: rest)
      return ((low, high), n + 1 + m)
  | _ => return ((low, low), n)

/-- The ranges up to the closing bracket, and the number of characters up to and including it.
The first `skip` characters belong to a range already read; `opened` is the place of the opening
bracket and `offset` that of the text. -/
def setRanges (opened : Nat) : Nat → Nat → Nat → List (Char × Char) → List Char →
    Except GrammarError (List (Char × Char) × Nat)
  | _, _, _, _, [] => .error (.unterminatedCharClass opened)
  | skip + 1, offset, taken, ranges, c :: rest =>
    setRanges opened skip (offset + c.utf8Size) (taken + 1) ranges rest
  | 0, offset, taken, ranges, c :: rest =>
    if c = ']' then .ok (ranges.reverse, taken + 1)
    else match setRange offset (c :: rest) with
      | .error e => .error e
      | .ok (range, n) =>
        setRanges opened (n - 1) (offset + c.utf8Size) (taken + 1) (range :: ranges) rest

/-- The set whose opening bracket at `opened` is followed by `cs`, and the number of characters
up to and including the closing bracket. -/
def charSet (opened : Nat) (cs : List Char) : Except GrammarError (CharSet × Nat) := do
  if cs.head? = some '^' then
    let (ranges, n) ← setRanges opened 0 (opened + 2) 0 [] (cs.drop 1)
    return (⟨ranges, true⟩, n + 1)
  else
    let (ranges, n) ← setRanges opened 0 (opened + 1) 0 [] cs
    return (⟨ranges, false⟩, n)

/-! ## Lexemes -/

/-- What a reader finds at a place of the text. -/
inductive Found where
  /-- A blank or a comment. -/
  | nothing
  | lexeme (found : Lexeme)

/-- Whether a name may start with `c`. -/
def startsName (c : Char) : Bool :=
  c.isAlpha || c == '_'

/-- Whether a name may go on with `c`. -/
def continuesName (c : Char) : Bool :=
  c.isAlphanum || c == '_'

/-- The lexeme, blank or comment at `offset` that starts with `c`, and the number of characters it
takes of `rest`. -/
def find (offset : Nat) (c : Char) (rest : List Char) : Except GrammarError (Found × Nat) :=
  if Blank.isBlank c then .ok (.nothing, 0)
  else if c = '/' && rest.head? = some '*' then
    match commentLength? (rest.drop 1) with
    | some n => .ok (.nothing, n + 1)
    | none => .error (.unexpectedToken .unterminatedComment offset)
  else if c = ':' && [':', '='].isPrefixOf rest then .ok (.lexeme .define, 2)
  else if c = '\'' || c = '"' then
    match quoted? c rest with
    | some text => .ok (.lexeme (.literal (String.ofList text)), text.length + 1)
    | none => .error (.unterminatedLiteral offset)
  else if c = '[' then
    match charSet offset rest with
    | .ok (set, n) => .ok (.lexeme (.charSet set), n)
    | .error e => .error e
  else if c = '#' && rest.head? = some 'x' then
    match codePoint offset (rest.drop 1) with
    | .ok (code, n) => .ok (.lexeme (.charCode code), n + 1)
    | .error e => .error e
  else if c = '(' then .ok (.lexeme .openGroup, 0)
  else if c = ')' then .ok (.lexeme .closeGroup, 0)
  else if c = '|' then .ok (.lexeme .bar, 0)
  else if c = '-' then .ok (.lexeme .minus, 0)
  else if c = '?' then .ok (.lexeme .question, 0)
  else if c = '*' then .ok (.lexeme .star, 0)
  else if c = '+' then .ok (.lexeme .plus, 0)
  else if startsName c then
    let more := rest.takeWhile continuesName
    .ok (.lexeme (.name (String.ofList (c :: more))), more.length)
  else .error (.unknownOperator c offset)

/-- The lexemes of the text at `offset`, of which the first `skip` characters are read already. -/
def lexemesFrom : Nat → Nat → List Char → Except GrammarError (List Located)
  | _, _, [] => .ok []
  | skip + 1, offset, c :: rest => lexemesFrom skip (offset + c.utf8Size) rest
  | 0, offset, c :: rest =>
    match find offset c rest with
    | .error e => .error e
    | .ok (.nothing, n) => lexemesFrom n (offset + c.utf8Size) rest
    | .ok (.lexeme found, n) =>
      match lexemesFrom n (offset + c.utf8Size) rest with
      | .error e => .error e
      | .ok more => .ok (⟨found, offset⟩ :: more)

/-- The lexemes of `text`, in order. -/
def lexemes (text : List Char) : Except GrammarError (List Located) :=
  lexemesFrom 0 0 text

end MarkupFilter.RuleText
