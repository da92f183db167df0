import MarkupFilter.Text.WordCharacter

/-!
# Anchors

An anchor is a condition on a place between two characters of a text. It never looks further than
at the two neighbours of the place, and of these it only tells a few kinds apart.

## Main definitions

* `Neighbour` — the kinds of neighbours that anchors tell apart.
* `Place` — a place of a text, as anchors see it.
* `Anchor` — the conditions.
* `Anchor.holds` — whether a condition holds at a place.
* `PlaceSet` — sets of places.
-/

set_option autoImplicit false

namespace MarkupFilter.Pattern

/-! ## Places -/

/-- What an anchor can tell of the character on one side of a place. -/
inductive Neighbour where
  /-- There is none: the text ends here. -/
  | edge
  | lineFeed
  | carriageReturn
  /-- A word character of ASCII. -/
  | asciiWord
  /-- Another word character. -/
  | word
  /-- Any other character. -/
  | other
  deriving DecidableEq, Hashable, Repr

namespace Neighbour

/-- The kind of a character. -/
def ofChar (c : Char) : Neighbour :=
  if c = '\n' then .lineFeed
  else if c = '\r' then .carriageReturn
  else if WordCharacter.isAsciiWord c then .asciiWord
  else if WordCharacter.isWord c then .word
  else .other

/-- The kind of a character, or of the edge of the text. -/
def ofChar? : Option Char → Neighbour
  | none => .edge
  | some c => ofChar c

/-- Whether it is a word character; with `unicode`, those outside ASCII count too. -/
def isWord (unicode : Bool) : Neighbour → Bool
  | .asciiWord => true
  | .word => unicode
  | _ => false

/-- All kinds. -/
def all : List Neighbour :=
  [.edge, .lineFeed, .carriageReturn, .asciiWord, .word, .other]

/-- The number of a kind. -/
def index : Neighbour → Nat
  | .edge => 0
  | .lineFeed => 1
  | .carriageReturn => 2
  | .asciiWord => 3
  | .word => 4
  | .other => 5

end Neighbour

/-- A place between two characters of a text. -/
structure Place where
  before : Neighbour
  after : Neighbour
  deriving DecidableEq, Repr

namespace Place

/-- The place of `text` after `i` characters. -/
def ofIndex (text : List Char) (i : Nat) : Place :=
  ⟨.ofChar? (text.take i).getLast?, .ofChar? text[i]?⟩

/-- The number of a place among all places that can be told apart. -/
def index (p : Place) : Nat :=
  p.before.index * 6 + p.after.index

/-- All places that can be told apart. -/
def all : List Place :=
  Neighbour.all.flatMap fun before => Neighbour.all.map fun after => ⟨before, after⟩

end Place

/-! ## Conditions -/

/-- A condition on which of the two neighbours are word characters. -/
inductive WordAnchor where
  /-- One is and the other is not. -/
  | boundary
  /-- Both are or both are not. -/
  | noBoundary
  /-- The one before is not, the one after is. -/
  | wordStart
  /-- The one before is, the one after is not. -/
  | wordEnd
  /-- The one before is not. -/
  | noneBefore
  /-- The one after is not. -/
  | noneAfter
  deriving DecidableEq, Repr

/-- Whether the condition holds, given of which neighbours it is true that they are word
characters. -/
def WordAnchor.holds (before after : Bool) : WordAnchor → Bool
  | .boundary => before != after
  | .noBoundary => before == after
  | .wordStart => !before && after
  | .wordEnd => before && !after
  | .noneBefore => !before
  | .noneAfter => !after

/-- A condition on a place. -/
inductive Anchor where
  /-- The start of the text. -/
  | textStart
  /-- The end of the text. -/
  | textEnd
  /-- The start of the text, or the place after a line feed. -/
  | lineStart
  /-- The end of the text, or the place before a line feed. -/
  | lineEnd
  /-- The start of a line that ends with a line feed, a carriage return or both; nothing starts
  between these two. -/
  | anyLineStart
  /-- The end of such a line. -/
  | anyLineEnd
  /-- A condition on word characters, those outside ASCII included with `unicode`. -/
  | word (kind : WordAnchor) (unicode : Bool)
  deriving DecidableEq, Repr

/-- Whether the condition holds at a place. -/
def Anchor.holds (p : Place) : Anchor → Bool
  | .textStart => p.before = .edge
  | .textEnd => p.after = .edge
  | .lineStart => p.before = .edge || p.before = .lineFeed
  | .lineEnd => p.after = .edge || p.after = .lineFeed
  | .anyLineStart =>
    p.before = .edge || p.before = .lineFeed || p.before = .carriageReturn && p.after ≠ .lineFeed
  | .anyLineEnd =>
    p.after = .edge || p.after = .carriageReturn ||
      p.after = .lineFeed && p.before ≠ .carriageReturn
  | .word kind unicode => kind.holds (p.before.isWord unicode) (p.after.isWord unicode)

/-! ## Sets of places -/

/-- A set of places, with a bit for each of them. -/
structure PlaceSet where
  bits : Nat
  deriving DecidableEq, Repr

namespace PlaceSet

/-- Whether the place is in the set. -/
def contains (s : PlaceSet) (p : Place) : Bool :=
  s.bits.testBit p.index

/-- No place. -/
def empty : PlaceSet := ⟨0⟩

/-- Every place. -/
def all : PlaceSet := ⟨Nat.pow 2 36 - 1⟩

/-- The places in both sets. -/
def inter (s t : PlaceSet) : PlaceSet := ⟨s.bits &&& t.bits⟩

/-- The places in either set. -/
def union (s t : PlaceSet) : PlaceSet := ⟨s.bits ||| t.bits⟩

/-- The places at which a condition holds. -/
def ofAnchor (a : Anchor) : PlaceSet :=
  ⟨Place.all.foldl (fun bits p => if a.holds p then bits ||| 1 <<< p.index else bits) 0⟩

@[simp] theorem contains_empty (p : Place) : empty.contains p = false := by
  simp [empty, contains]

@[simp] theorem contains_all (p : Place) : all.contains p = true := by
  rcases p with ⟨before, after⟩
  cases before <;> cases after <;> decide

@[simp] theorem contains_inter (s t : PlaceSet) (p : Place) :
    (s.inter t).contains p = (s.contains p && t.contains p) := by
  simp [inter, contains]

@[simp] theorem contains_union (s t : PlaceSet) (p : Place) :
    (s.union t).contains p = (s.contains p || t.contains p) := by
  simp [union, contains]

@[simp] theorem contains_ofAnchor (a : Anchor) (p : Place) :
    (ofAnchor a).contains p = a.holds p := by
  rcases p with ⟨before, after⟩
  rcases a with _ | _ | _ | _ | _ | _ | ⟨_ | _ | _ | _ | _ | _, _ | _⟩ <;>
    cases before <;> cases after <;> decide +kernel

end PlaceSet

end MarkupFilter.Pattern
