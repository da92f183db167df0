import MarkupFilter.Text.IndexedText

/-!
# Tokens and windows

A window is a stretch of a text: what a match may read, from the current place up to a limit. A
token is a stretch of text that a named rule has matched, together with the tokens inside it. Both
point into the text and copy nothing of it. The places of tokens are counted in bytes of UTF-8 from
the start of the whole text, those of windows in characters.

## Main definitions

* `Window` — a stretch of a text.
* `Token` — a named match, with its place and the tokens inside.
* `Token.rows` — the token and all tokens inside it, with their depths.
* `Match` — the outcome of a successful match: the number of characters and the tokens.

## Main results

* `Window.start_eq`, `Window.stop_eq` — the byte offsets of a window count the characters before.
* `Window.text_drop`, `Window.text_upTo` — what is left of the text of a window.
* `Window.literal?_eq`, `Window.char?_eq` — the first matches depend on the window's text only.
* `Token.rows_mk`, `Token.rowsOf_cons` — the order of the rows.
-/

set_option autoImplicit false

namespace MarkupFilter.Grammar

/-! ## Windows -/

/-- A stretch of the text `input`. -/
structure Window where
  input : IndexedText
  /-- The number of characters before it. -/
  place : Nat
  /-- The number of characters before its end. -/
  limit : Nat
  limit_le : limit ≤ input.size

namespace Window

/-- The window over the whole of `input`. -/
def whole (input : List Char) : Window :=
  ⟨.ofList input, 0, (IndexedText.ofList input).size, Nat.le_refl _⟩

/-- The window in which there is nothing to read. -/
def nothing : Window :=
  whole []

/-- The number of characters in the window. -/
def size (w : Window) : Nat :=
  w.limit - w.place

/-- The characters in the window. -/
def text (w : Window) : List Char :=
  (w.input.chars.extract w.place w.limit).toList

/-- The number of bytes before the window. -/
def start (w : Window) : Nat :=
  w.input.offset w.place

/-- The number of bytes before the end of the window. -/
def stop (w : Window) : Nat :=
  w.input.offset w.limit

/-- The window after its first `n` characters, up to the same limit. -/
def drop (w : Window) (n : Nat) : Window :=
  { w with place := w.place + n }

/-- The part of the window before the place `limit`. -/
def upTo (w : Window) (limit : Nat) : Window :=
  { w with
    limit := min limit w.limit
    limit_le := Nat.le_trans (Nat.min_le_right _ _) w.limit_le }

theorem text_eq (w : Window) : w.text = (w.input.chars.toList.drop w.place).take w.size := by
  simp [text, size, List.extract_eq_take_drop]

theorem length_text (w : Window) : w.text.length = w.size := by
  have := w.limit_le
  simp only [IndexedText.size] at this
  simp only [text, size, Array.length_toList, Array.size_extract]
  omega

theorem start_eq (w : Window) : w.start = Utf8.size (w.input.chars.toList.take w.place) :=
  w.input.offset_eq w.place

theorem stop_eq (w : Window) (h : w.place ≤ w.limit) : w.stop = w.start + Utf8.size w.text := by
  rw [stop, IndexedText.offset_eq, start_eq, ← Utf8.size_append, text_eq, size,
    ← Nat.add_sub_of_le h, List.take_add, Nat.add_sub_of_le h]

@[simp] theorem limit_drop (w : Window) (n : Nat) : (w.drop n).limit = w.limit := rfl

@[simp] theorem place_drop (w : Window) (n : Nat) : (w.drop n).place = w.place + n := rfl

@[simp] theorem size_drop (w : Window) (n : Nat) : (w.drop n).size = w.size - n := by
  simp only [size, drop]
  omega

@[simp] theorem text_drop (w : Window) (n : Nat) : (w.drop n).text = w.text.drop n := by
  rw [text_eq, text_eq, size_drop, List.drop_take, List.drop_drop]
  rfl

@[simp] theorem place_upTo (w : Window) (limit : Nat) : (w.upTo limit).place = w.place := rfl

@[simp] theorem text_upTo (w : Window) (limit : Nat) :
    (w.upTo limit).text = w.text.take (limit - w.place) := by
  rw [text_eq, text_eq, List.take_take]
  simp only [size, upTo]
  congr 1
  omega

end Window

/-! ## Tokens -/

/-- The stretch `window` of a text, matched by the rule `name`. -/
structure Token where
  name : String
  window : Window
  children : List Token

namespace Token

/-- The place of the first byte of the token. -/
def start (t : Token) : Nat :=
  t.window.start

/-- The place of the first byte after the token. -/
def stop (t : Token) : Nat :=
  t.window.stop

/-- The text of the token. -/
def text (t : Token) : String :=
  String.ofList t.window.text

/-- The first token directly inside that was matched by the rule `name`. -/
def child? (t : Token) (name : String) : Option Token :=
  t.children.find? fun c => c.name == name

/-- All tokens directly inside that were matched by the rule `name`, in order. -/
def childrenNamed (t : Token) (name : String) : List Token :=
  t.children.filter fun c => c.name == name

/-- The text of the first token directly inside that was matched by the rule `name`, or nothing. -/
def childText (t : Token) (name : String) : String :=
  match t.child? name with
  | some c => c.text
  | none => ""

mutual

/-- Whether two tokens and all tokens inside them agree in name, place and text. -/
def same : Token → Token → Bool
  | ⟨n, v, cs⟩, ⟨m, w, ds⟩ => n == m && v.start == w.start && v.text == w.text && sameAll cs ds

/-- Whether two lists of tokens agree one by one. -/
def sameAll : List Token → List Token → Bool
  | [], [] => true
  | c :: cs, d :: ds => same c d && sameAll cs ds
  | _, _ => false

end

mutual

/-- The rows of a token, the last one first, before the rows `seen`. -/
def visit (depth : Nat) (seen : List (Nat × Token)) : Token → List (Nat × Token)
  | t@⟨_, _, cs⟩ => visitAll (depth + 1) ((depth, t) :: seen) cs

/-- The rows of a list of tokens, the last one first, before the rows `seen`. -/
def visitAll (depth : Nat) (seen : List (Nat × Token)) : List Token → List (Nat × Token)
  | [] => seen
  | t :: ts => visitAll depth (visit depth seen t) ts

end

/-- The token and the tokens inside it with their depths, each before those inside it. -/
def rows (depth : Nat) (t : Token) : List (Nat × Token) :=
  (visit depth [] t).reverse

/-- The rows of a list of tokens. -/
def rowsOf (depth : Nat) (ts : List Token) : List (Nat × Token) :=
  (visitAll depth [] ts).reverse

mutual

/-- What has been seen before a token stays as it is. -/
theorem visit_eq (depth : Nat) (seen : List (Nat × Token)) (t : Token) :
    visit depth seen t = visit depth [] t ++ seen := by
  match t with
  | ⟨n, w, cs⟩ =>
    rw [visit, visit, visitAll_eq (depth + 1) (_ :: seen), visitAll_eq (depth + 1) [_],
      List.append_assoc, List.singleton_append]

/-- What has been seen before a list of tokens stays as it is. -/
theorem visitAll_eq (depth : Nat) (seen : List (Nat × Token)) (ts : List Token) :
    visitAll depth seen ts = visitAll depth [] ts ++ seen := by
  match ts with
  | [] => simp [visitAll]
  | t :: ts =>
    rw [visitAll, visitAll, visit_eq depth seen, visitAll_eq depth (visit depth [] t ++ seen),
      visitAll_eq depth (visit depth [] t), List.append_assoc]

end

theorem rows_mk (depth : Nat) (n : String) (w : Window) (cs : List Token) :
    rows depth ⟨n, w, cs⟩ = (depth, ⟨n, w, cs⟩) :: rowsOf (depth + 1) cs := by
  rw [rows, rowsOf, visit, visitAll_eq]
  simp

@[simp] theorem rowsOf_nil (depth : Nat) : rowsOf depth [] = [] := rfl

@[simp] theorem rowsOf_cons (depth : Nat) (t : Token) (ts : List Token) :
    rowsOf depth (t :: ts) = rows depth t ++ rowsOf depth ts := by
  rw [rowsOf, rowsOf, rows, visitAll, visitAll_eq]
  simp

end Token

/-! ## Matches -/

/-- A match of a window from its start: the number of characters it takes, and the tokens of the
named rules in it. -/
structure Match where
  length : Nat
  tokens : List Token

namespace Match

/-- The match of nothing. -/
def empty : Match := ⟨0, []⟩

/-- One match, and another right after it. -/
def append (m n : Match) : Match :=
  ⟨m.length + n.length, m.tokens ++ n.tokens⟩

/-- The match as a token for the rule `name`. -/
def toToken (m : Match) (name : String) (w : Window) : Token :=
  ⟨name, w.upTo (w.place + m.length), m.tokens⟩

end Match

namespace Window

/-- The match of the literal `cs` at the start of the window. -/
def literal? (cs : List Char) (w : Window) : Option Match :=
  if w.input.hasAt cs w.place && cs.length ≤ w.size then some ⟨cs.length, []⟩ else none

/-- The match of one character that satisfies `p`. -/
def char? (p : Char → Bool) (w : Window) : Option Match :=
  if h : w.place < w.limit then
    have : w.place < w.input.chars.size := Nat.lt_of_lt_of_le h w.limit_le
    if p w.input.chars[w.place] then some ⟨1, []⟩ else none
  else none

theorem literal?_eq (cs : List Char) (w : Window) :
    w.literal? cs = if cs.isPrefixOf w.text then some ⟨cs.length, []⟩ else none := by
  have h : (w.input.hasAt cs w.place && decide (cs.length ≤ w.size)) = cs.isPrefixOf w.text := by
    rw [Bool.eq_iff_iff, Bool.and_eq_true, IndexedText.hasAt_iff, List.isPrefixOf_iff_prefix,
      text_eq, decide_eq_true_iff, List.prefix_take_iff]
  rw [literal?, h]

theorem char?_eq (p : Char → Bool) (w : Window) :
    w.char? p = if w.text.head?.any p then some ⟨1, []⟩ else none := by
  have hle : w.limit ≤ w.input.chars.size := w.limit_le
  rw [char?, text_eq]
  split
  · next h =>
    have hp : w.place < w.input.chars.size := by omega
    obtain ⟨n, hn⟩ : ∃ n, w.size = n + 1 := ⟨w.size - 1, by simp only [size]; omega⟩
    rw [hn, List.drop_eq_getElem_cons (by simpa using hp), List.take_succ_cons, List.head?_cons,
      Option.any_some, Array.getElem_toList]
  · next h =>
    rw [show w.size = 0 by simp only [size]; omega]
    simp

end Window

end MarkupFilter.Grammar
