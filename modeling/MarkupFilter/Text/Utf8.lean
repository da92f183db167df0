/-!
# UTF-8

The number of bytes a text takes, by which every offset is counted, and the reading of bytes
that need not be well formed.

## Main definitions

* `Utf8.size` — the number of bytes of a list of characters.
* `Utf8.decodeLossy` — read bytes as UTF-8, with one replacement character for each longest
  start of a sequence that cannot be completed, or for a single byte that starts none.
-/

set_option autoImplicit false

namespace MarkupFilter.Utf8

/-! ## Size -/

/-- The number of bytes that `cs` takes. -/
def size : List Char → Nat
  | [] => 0
  | c :: cs => c.utf8Size + size cs

@[simp] theorem size_nil : size [] = 0 := rfl

@[simp] theorem size_cons (c : Char) (cs : List Char) : size (c :: cs) = c.utf8Size + size cs :=
  rfl

@[simp] theorem size_append (as bs : List Char) : size (as ++ bs) = size as + size bs := by
  induction as with
  | nil => simp
  | cons a as ih => simp [ih, Nat.add_assoc]

/-- A text is split by a count of characters into two whose sizes add up. -/
theorem size_take_add_drop (n : Nat) (cs : List Char) :
    size (cs.take n) + size (cs.drop n) = size cs := by
  rw [← size_append, List.take_append_drop]

/-! ## Reading bytes -/

/-- The character written for bytes that are not UTF-8. -/
def replacement : Char := Char.ofNat 0xFFFD

/-- What the first byte of a sequence announces. -/
inductive Lead where
  /-- The byte is a character. -/
  | ascii
  /-- `tails` bytes follow; `bits` is the first byte's share of the code point, and the next byte
  lies between `low` and `high`. -/
  | sequence (tails bits low high : Nat)
  /-- No sequence starts with this byte. -/
  | invalid

/-- The sequences of the Unicode standard's table of well-formed UTF-8: the range of the second
byte excludes overlong forms, surrogates and numbers above `10FFFF`. -/
def lead (b : Nat) : Lead :=
  if b < 0x80 then .ascii
  else if b < 0xC2 then .invalid
  else if b < 0xE0 then .sequence 1 (b - 0xC0) 0x80 0xBF
  else if b = 0xE0 then .sequence 2 0 0xA0 0xBF
  else if b = 0xED then .sequence 2 0xD 0x80 0x9F
  else if b < 0xF0 then .sequence 2 (b - 0xE0) 0x80 0xBF
  else if b = 0xF0 then .sequence 3 0 0x90 0xBF
  else if b < 0xF4 then .sequence 3 (b - 0xF0) 0x80 0xBF
  else if b = 0xF4 then .sequence 3 4 0x80 0x8F
  else .invalid

/-- Where the reader stands between two bytes. -/
inductive State where
  /-- Between two characters. -/
  | start
  /-- Within a sequence: `tails + 1` bytes are owed, `bits` is read so far, and the next byte lies
  between `low` and `high`. -/
  | owed (tails bits low high : Nat)

/-- One byte read between two characters. -/
def begin (b : Nat) : List Char × State :=
  match lead b with
  | .ascii => ([Char.ofNat b], .start)
  | .sequence tails bits low high => ([], .owed (tails - 1) bits low high)
  | .invalid => ([replacement], .start)

/-- One byte read: the characters that are settled by it, and where the reader stands after it.
A byte that does not continue a sequence ends it and is read again as a first byte. -/
def step : State → Nat → List Char × State
  | .start, b => begin b
  | .owed tails bits low high, b =>
    if low ≤ b ∧ b ≤ high then
      let bits := bits * 64 + (b - 0x80)
      match tails with
      | 0 => ([Char.ofNat bits], .start)
      | tails + 1 => ([], .owed tails bits 0x80 0xBF)
    else
      let (cs, state) := begin b
      (replacement :: cs, state)

/-- The characters of bytes that follow a reader's state. -/
def decodeFrom : State → List Nat → List Char
  | .start, [] => []
  | .owed .., [] => [replacement]
  | state, b :: bytes =>
    let (cs, state) := step state b
    cs ++ decodeFrom state bytes

/-- The text of `bytes`, with a replacement character where they are not UTF-8. -/
def decodeLossy (bytes : List Nat) : String :=
  String.ofList (decodeFrom .start bytes)

end MarkupFilter.Utf8
