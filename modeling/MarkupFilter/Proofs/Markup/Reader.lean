import MarkupFilter.Markup.Piece

/-!
# Reading pieces directly

A reader of markup on plain lists of characters, one function for each kind of unit, without rules,
windows and memos. Each function reads from the start of a text and gives what it has read together
with the rest of the text.

## Main definitions

* `Reader.piece?` — the first piece of a text.
* `WrittenTag` — a start tag with all that is written in it.
* `Reader.units`, `Reader.pieces` — all pieces of a text, with and without these.

## Main results

* `Reader.piece?_isSome` — every text that is not empty starts with a piece.
* `Reader.length_lt_of_piece?` — a piece takes at least one character.
-/

set_option autoImplicit false

namespace MarkupFilter

/-- A start tag as it is written: its name and all of its attributes in order, with those that
repeat a name. -/
structure WrittenTag where
  name : String
  attributes : List Attribute
  deriving DecidableEq, Repr

namespace Reader

/-! ## Characters -/

/-- A blank of markup. -/
def isBlank (c : Char) : Bool :=
  Markup.blanks.contains c

/-- A letter, with which a name of a tag starts. -/
def isNameStart (c : Char) : Bool :=
  'a' ≤ c && c ≤ 'z' || 'A' ≤ c && c ≤ 'Z'

/-- A character that may follow in the name of a tag. -/
def isNameChar (c : Char) : Bool :=
  isNameStart c || '0' ≤ c && c ≤ '9' || [':', '_', '.', '-'].contains c

/-- A character of an attribute's name. -/
def isAttributeNameChar (c : Char) : Bool :=
  !(Markup.blanks ++ ['/', '>', '=', '<', '"', '\'']).contains c

/-- A character that a value without quotes may start with. -/
def isBareStart (c : Char) : Bool :=
  !(Markup.blanks ++ ['>', '"', '\'', '`', '=', '<']).contains c

/-- A character that may follow in a value without quotes. -/
def isBareChar (c : Char) : Bool :=
  !(Markup.blanks ++ ['>', '<']).contains c

/-- A character of a condition. -/
def isConditionChar (c : Char) : Bool :=
  !([']', '<', '>'].contains c)

/-! ## Beginnings -/

/-- What follows `start` in a text that begins with it. -/
def after? (start cs : List Char) : Option (List Char) :=
  if start.isPrefixOf cs then some (cs.drop start.length) else none

/-- What follows the first of `starts` that a text begins with. -/
def afterOne? (starts : List (List Char)) (cs : List Char) : Option (List Char) :=
  starts.findSome? fun start => after? start cs

/-- The text without the blanks at its start. -/
def skipBlanks (cs : List Char) : List Char :=
  cs.dropWhile isBlank

/-- The part of `cs` before the rest `rest`. -/
def consumed (cs rest : List Char) : String :=
  String.ofList (cs.take (cs.length - rest.length))

/-! ## Tags -/

/-- One character that satisfies `p`. -/
def char? (p : Char → Bool) : List Char → Option (Char × List Char)
  | [] => none
  | c :: cs => if p c then some (c, cs) else none

/-- The characters up to the first that does not satisfy `p`, at least one. -/
def row? (p : Char → Bool) (cs : List Char) : Option (List Char × List Char) :=
  if (cs.takeWhile p).isEmpty then none else some (cs.takeWhile p, cs.dropWhile p)

/-- The name of a tag. -/
def name? (cs : List Char) : Option (List Char × List Char) := do
  let (c, cs) ← char? isNameStart cs
  return (c :: cs.takeWhile isNameChar, cs.dropWhile isNameChar)

/-- A value within quotes. -/
def quotedValue? (quote : Char) (cs : List Char) :
    Option ((List Char × Option Char) × List Char) := do
  let cs ← after? [quote] cs
  let rest ← after? [quote] (cs.dropWhile (· != quote))
  return ((cs.takeWhile (· != quote), some quote), rest)

/-- A value without quotes. -/
def bareValue? (cs : List Char) : Option (List Char × List Char) := do
  let (c, cs) ← char? isBareStart cs
  return (c :: cs.takeWhile isBareChar, cs.dropWhile isBareChar)

/-- The value of an attribute and its quote. -/
def value? (cs : List Char) : Option ((List Char × Option Char) × List Char) :=
  quotedValue? '"' cs <|> quotedValue? '\'' cs <|>
    (bareValue? cs).map fun (value, rest) => ((value, none), rest)

/-- What is assigned to an attribute after its name. -/
def assigned? (cs : List Char) : Option ((List Char × Option Char) × List Char) := do
  let cs ← after? ['='] (skipBlanks cs)
  value? (skipBlanks cs)

/-- An attribute, with what is assigned to it, if anything is. -/
def attribute? (cs : List Char) : Option (Attribute × List Char) := do
  let (name, rest) ← row? isAttributeNameChar cs
  match assigned? rest with
  | some ((value, quote), rest) =>
    return ({ name := String.ofList name, value := some (String.ofList value), quote := quote }, rest)
  | none => return ({ name := String.ofList name }, rest)

theorem length_dropWhile_le {α : Type} (p : α → Bool) (cs : List α) :
    (cs.dropWhile p).length ≤ cs.length :=
  (List.dropWhile_sublist p).length_le

@[simp] theorem after?_append (start rest : List Char) : after? start (start ++ rest) = some rest := by
  rw [after?, if_pos (List.isPrefixOf_iff_prefix.2 (List.prefix_append ..)), List.drop_left]

theorem eq_append_of_after? {start cs rest : List Char} (h : after? start cs = some rest) :
    cs = start ++ rest := by
  unfold after? at h
  split at h
  · next hp =>
    cases h
    obtain ⟨t, rfl⟩ := List.isPrefixOf_iff_prefix.1 hp
    rw [List.drop_left]
  · cases h

theorem length_of_after? {start cs rest : List Char} (h : after? start cs = some rest) :
    rest.length + start.length = cs.length := by
  rw [eq_append_of_after? h, List.length_append, Nat.add_comm]

theorem length_lt_of_char? {p : Char → Bool} {c : Char} {cs rest : List Char}
    (h : char? p cs = some (c, rest)) : rest.length < cs.length := by
  cases cs with
  | nil => cases h
  | cons c cs =>
    simp only [char?] at h
    split at h
    · cases h
      exact Nat.lt_succ_self _
    · cases h

theorem eq_append_of_row? {p : Char → Bool} {cs row rest : List Char}
    (h : row? p cs = some (row, rest)) : cs = row ++ rest := by
  unfold row? at h
  split at h
  · cases h
  · cases h
    exact List.takeWhile_append_dropWhile.symm

theorem length_lt_of_row? {p : Char → Bool} {cs row rest : List Char}
    (h : row? p cs = some (row, rest)) : rest.length < cs.length := by
  unfold row? at h
  split at h
  · cases h
  · next hne =>
    cases h
    rw [List.isEmpty_iff] at hne
    have hpos := List.length_pos_iff.2 hne
    have hsplit := congrArg List.length (List.takeWhile_append_dropWhile (p := p) (l := cs))
    rw [List.length_append] at hsplit
    omega

theorem length_lt_of_quotedValue? {quote : Char} {cs rest : List Char}
    {v : List Char × Option Char} (h : quotedValue? quote cs = some (v, rest)) :
    rest.length < cs.length := by
  simp only [quotedValue?, Option.bind_eq_bind, Option.bind_eq_some_iff] at h
  obtain ⟨cs₁, h₁, cs₂, h₂, heq⟩ := h
  cases heq
  have l₁ := length_of_after? h₁
  have l₂ := length_of_after? h₂
  have l₃ := length_dropWhile_le (· != quote) cs₁
  simp only [List.length_cons, List.length_nil] at l₁ l₂
  omega

theorem length_lt_of_bareValue? {cs v rest : List Char}
    (h : bareValue? cs = some (v, rest)) : rest.length < cs.length := by
  simp only [bareValue?, Option.bind_eq_bind, Option.bind_eq_some_iff, Prod.exists] at h
  obtain ⟨c, cs₁, h₁, heq⟩ := h
  cases heq
  exact Nat.lt_of_le_of_lt (length_dropWhile_le _ _) (length_lt_of_char? h₁)

theorem length_lt_of_value? {cs rest : List Char} {v : List Char × Option Char}
    (h : value? cs = some (v, rest)) : rest.length < cs.length := by
  simp only [value?, Option.orElse_eq_orElse, Option.orElse_eq_or, Option.or_eq_some_iff] at h
  rcases h with h | ⟨-, h | ⟨-, h⟩⟩
  · exact length_lt_of_quotedValue? h
  · exact length_lt_of_quotedValue? h
  · obtain ⟨⟨v', rest'⟩, hbare, heq⟩ := Option.map_eq_some_iff.1 h
    cases heq
    exact length_lt_of_bareValue? hbare

theorem length_lt_of_assigned? {cs rest : List Char} {v : List Char × Option Char}
    (h : assigned? cs = some (v, rest)) : rest.length < cs.length := by
  simp only [assigned?, Option.bind_eq_bind, Option.bind_eq_some_iff] at h
  obtain ⟨cs₁, h₁, h₂⟩ := h
  have l₁ := length_of_after? h₁
  have l₂ := length_lt_of_value? h₂
  have l₃ := length_dropWhile_le isBlank cs
  have l₄ := length_dropWhile_le isBlank cs₁
  unfold skipBlanks at l₁ l₂
  omega

theorem length_lt_of_attribute? {cs rest : List Char} {a : Attribute}
    (h : attribute? cs = some (a, rest)) : rest.length < cs.length := by
  simp only [attribute?, Option.bind_eq_bind, Option.bind_eq_some_iff, Prod.exists] at h
  obtain ⟨name, cs₁, hname, h⟩ := h
  have := length_lt_of_row? hname
  split at h
  · next hassigned =>
    cases h
    exact Nat.lt_trans (length_lt_of_assigned? hassigned) this
  · cases h
    exact this

/-- The attributes of a start tag, with blanks before each. -/
def attributes (cs : List Char) : List Attribute × List Char :=
  match h : attribute? (skipBlanks cs) with
  | none => ([], cs)
  | some (a, rest) =>
    have : rest.length < cs.length :=
      Nat.lt_of_lt_of_le (length_lt_of_attribute? h) (length_dropWhile_le _ _)
    ((a :: (attributes rest).1), (attributes rest).2)
termination_by cs.length

theorem attributes_of_none {cs : List Char} (h : attribute? (skipBlanks cs) = none) :
    attributes cs = ([], cs) := by
  rw [attributes]
  split
  · rfl
  · next h' => rw [h] at h'; cases h'

theorem attributes_of_some {cs rest : List Char} {a : Attribute}
    (h : attribute? (skipBlanks cs) = some (a, rest)) :
    attributes cs = (a :: (attributes rest).1, (attributes rest).2) := by
  rw [attributes]
  split
  · next h' => rw [h] at h'; cases h'
  · next h' => rw [h] at h'; cases h'; rfl

/-- The end of a start tag: whether it closes itself. -/
def tagEnd? (cs : List Char) : Option (Bool × List Char) :=
  match after? ['/'] (skipBlanks cs) with
  | some rest => (after? ['>'] rest).map fun rest => (true, rest)
  | none => (after? ['>'] (skipBlanks cs)).map fun rest => (false, rest)

/-- A start tag. Of attributes with one name the first counts. -/
def startTag? (cs : List Char) : Option (Piece × List Char) := do
  let cs ← after? ['<'] cs
  let (name, cs) ← name? cs
  let (selfClosed, rest) ← tagEnd? (attributes cs).2
  return (.startTag
    { name := String.ofList name
      attributes := (attributes cs).1.foldl (fun as a => as.push a) {}
      selfClosed := selfClosed }, rest)

/-- An end tag of which the name is kept. -/
def endTagName? (cs : List Char) : Option (List Char × List Char) := do
  let cs ← after? ['<', '/'] cs
  let (name, cs) ← name? cs
  let rest ← after? ['>'] (skipBlanks cs)
  return (name, rest)

/-- An end tag. -/
def endTag? (cs : List Char) : Option (Piece × List Char) :=
  (endTagName? cs).map fun (name, rest) =>
    (.endTag (String.ofList name) (consumed cs rest), rest)

/-! ## Comments -/

/-- A text up to the nearest end of a comment, and what follows that. -/
def commentBody? : List Char → Option (List Char × List Char)
  | [] => none
  | c :: cs =>
    match after? ['-', '-', '>'] (c :: cs) with
    | some rest => some ([], rest)
    | none => (commentBody? cs).map fun (body, rest) => (c :: body, rest)

/-- The body of a comment ends at the first place where the end of a comment stands. -/
theorem commentBody?_eq (cs : List Char) :
    commentBody? cs =
      ((List.range cs.length).find? fun n => (after? ['-', '-', '>'] (cs.drop n)).isSome).map
        fun n => (cs.take n, cs.drop (n + 3)) := by
  induction cs with
  | nil => rfl
  | cons c cs ih =>
    rw [commentBody?, List.length_cons, List.range_succ_eq_map, List.find?_cons]
    rw [List.drop_zero]
    cases hafter : after? ['-', '-', '>'] (c :: cs) with
    | some rest =>
      simp only [after?] at hafter
      split at hafter
      · cases hafter
        rfl
      · cases hafter
    | none =>
      rw [ih, List.find?_map]
      simp only [Option.isSome_none, Option.map_map]
      rfl

/-- A comment. -/
def comment? (cs : List Char) : Option (Piece × List Char) := do
  let cs ← after? ['<', '!', '-', '-'] cs
  let (body, rest) ← commentBody? cs
  return (.comment (String.ofList body), rest)

/-- The condition in the opener of a conditional comment. -/
def condition? (cs : List Char) : Option (List Char × List Char) := do
  let cs ← after? ['i', 'f'] cs
  let (condition, rest) ← row? isConditionChar cs
  return ('i' :: 'f' :: condition, rest)

/-- The opener of a conditional comment, of which the condition is kept. -/
def openedCondition? (cs : List Char) : Option (List Char × List Char) := do
  let cs ← afterOne? [['<', '!', '-', '-', '['], ['<', '!', '[']] cs
  let (condition, cs) ← condition? cs
  let rest ← afterOne? [[']', '>', '<', '!', '-', '-', '>'], [']', '-', '-', '>'], [']', '>']] cs
  return (condition, rest)

/-- The opener of a conditional comment. -/
def conditionalStart? (cs : List Char) : Option (Piece × List Char) :=
  (openedCondition? cs).map fun (condition, rest) =>
    (.conditionalStart
      { name := consumed cs rest, condition := some (String.ofList condition) }, rest)

/-- What follows the closer of a conditional comment. -/
def afterConditionalEnd? (cs : List Char) : Option (List Char) := do
  let cs ← afterOne? [['<', '!', '-', '-', '<', '!', '['], ['<', '!', '-', '-', '['],
    ['<', '!', '[']] cs
  let cs ← after? ['e', 'n', 'd', 'i', 'f'] cs
  afterOne? [[']', '-', '-', '>'], [']', '>']] (skipBlanks cs)

/-- The closer of a conditional comment. -/
def conditionalEnd? (cs : List Char) : Option (Piece × List Char) :=
  (afterConditionalEnd? cs).map fun rest => (.conditionalEnd (consumed cs rest), rest)

/-! ## Pieces -/

/-- A text up to the next `<`, or a `<` that begins nothing else. -/
def text? (cs : List Char) : Option (Piece × List Char) :=
  ((row? (· != '<') cs).map fun (row, rest) => (.text (String.ofList row), rest)) <|>
    (after? ['<'] cs).map fun rest => (.text "<", rest)

/-- The first piece of a text. -/
def piece? (cs : List Char) : Option (Piece × List Char) :=
  conditionalStart? cs <|> conditionalEnd? cs <|> comment? cs <|> endTag? cs <|> startTag? cs <|>
    text? cs

/-- The start tag that a text begins with, with all of its attributes. -/
def tag? (cs : List Char) : Option WrittenTag := do
  let cs ← after? ['<'] cs
  let (name, cs) ← name? cs
  return ⟨String.ofList name, (attributes cs).1⟩

theorem tag?_of_name? {cs name rest : List Char} (h : name? cs = some (name, rest)) :
    tag? ('<' :: cs) = some ⟨String.ofList name, (attributes rest).1⟩ := by
  have hstart : after? ['<'] ('<' :: cs) = some cs := after?_append ['<'] cs
  rw [tag?, hstart, Option.bind_eq_bind, Option.bind_some, h]
  rfl

/-- The start tag as it is written, if the first piece of a text is one. -/
def tagOf? (cs : List Char) : Piece → Option WrittenTag
  | .startTag _ => tag? cs
  | _ => none

/-! ## Every piece takes something -/

theorem length_lt_of_afterOne? {starts : List (List Char)} {cs rest : List Char}
    (h : afterOne? starts cs = some rest) (hne : ∀ start ∈ starts, start ≠ []) :
    rest.length < cs.length := by
  obtain ⟨start, hmem, hstart⟩ := List.exists_of_findSome?_eq_some h
  have h₁ := length_of_after? hstart
  have h₂ := List.length_pos_iff.2 (hne start hmem)
  omega

theorem length_lt_of_name? {cs name rest : List Char} (h : name? cs = some (name, rest)) :
    rest.length < cs.length := by
  simp only [name?, Option.bind_eq_bind, Option.bind_eq_some_iff, Prod.exists] at h
  obtain ⟨c, cs₁, h₁, heq⟩ := h
  cases heq
  exact Nat.lt_of_le_of_lt (length_dropWhile_le _ _) (length_lt_of_char? h₁)

theorem length_attributes_le (cs : List Char) : (attributes cs).2.length ≤ cs.length := by
  induction hn : cs.length using Nat.strongRecOn generalizing cs with
  | _ n ih =>
    rw [attributes]
    split
    · exact Nat.le_of_eq hn
    · next a rest h =>
      have hlt : rest.length < cs.length :=
        Nat.lt_of_lt_of_le (length_lt_of_attribute? h) (length_dropWhile_le _ _)
      have := ih rest.length (by omega) rest rfl
      simp only
      omega

theorem length_lt_of_tagEnd? {cs rest : List Char} {b : Bool} (h : tagEnd? cs = some (b, rest)) :
    rest.length < cs.length := by
  have hle := length_dropWhile_le isBlank cs
  unfold tagEnd? skipBlanks at h
  split at h
  · next hslash =>
    obtain ⟨rest', hafter, heq⟩ := Option.map_eq_some_iff.1 h
    cases heq
    have l₁ := length_of_after? hslash
    have l₂ := length_of_after? hafter
    simp only [List.length_cons, List.length_nil] at l₁ l₂
    omega
  · obtain ⟨rest', hafter, heq⟩ := Option.map_eq_some_iff.1 h
    cases heq
    have l₁ := length_of_after? hafter
    simp only [List.length_cons, List.length_nil] at l₁
    omega

theorem length_lt_of_startTag? {cs rest : List Char} {p : Piece}
    (h : startTag? cs = some (p, rest)) : rest.length < cs.length := by
  simp only [startTag?, Option.bind_eq_bind, Option.bind_eq_some_iff, Prod.exists] at h
  obtain ⟨cs₁, h₁, name, cs₂, h₂, b, cs₃, h₃, heq⟩ := h
  cases heq
  have l₁ := length_of_after? h₁
  have l₂ := length_lt_of_name? h₂
  have l₃ := length_attributes_le cs₂
  have l₄ := length_lt_of_tagEnd? h₃
  omega

theorem length_lt_of_endTag? {cs rest : List Char} {p : Piece}
    (h : endTag? cs = some (p, rest)) : rest.length < cs.length := by
  obtain ⟨⟨name, rest'⟩, hread, heq⟩ := Option.map_eq_some_iff.1 h
  cases heq
  simp only [endTagName?, Option.bind_eq_bind, Option.bind_eq_some_iff, Prod.exists] at hread
  obtain ⟨cs₁, h₁, name, cs₂, h₂, cs₃, h₃, heq⟩ := hread
  cases heq
  have l₁ := length_of_after? h₁
  have l₂ := length_lt_of_name? h₂
  have l₃ := length_dropWhile_le isBlank cs₂
  have l₄ := length_of_after? h₃
  unfold skipBlanks at l₄
  omega

theorem length_le_of_commentBody? {cs body rest : List Char}
    (h : commentBody? cs = some (body, rest)) : rest.length ≤ cs.length := by
  induction cs generalizing body with
  | nil => cases h
  | cons c cs ih =>
    simp only [commentBody?] at h
    split at h
    · next hafter =>
      cases h
      have := length_of_after? hafter
      omega
    · obtain ⟨⟨body', rest'⟩, hbody, heq⟩ := Option.map_eq_some_iff.1 h
      cases heq
      exact Nat.le_succ_of_le (ih hbody)

theorem length_lt_of_comment? {cs rest : List Char} {p : Piece}
    (h : comment? cs = some (p, rest)) : rest.length < cs.length := by
  simp only [comment?, Option.bind_eq_bind, Option.bind_eq_some_iff, Prod.exists] at h
  obtain ⟨cs₁, h₁, body, cs₂, h₂, heq⟩ := h
  cases heq
  have l₁ := length_of_after? h₁
  have l₂ := length_le_of_commentBody? h₂
  simp only [List.length_cons, List.length_nil] at l₁
  omega

theorem length_le_of_condition? {cs condition rest : List Char}
    (h : condition? cs = some (condition, rest)) : rest.length ≤ cs.length := by
  simp only [condition?, Option.bind_eq_bind, Option.bind_eq_some_iff, Prod.exists] at h
  obtain ⟨cs₁, h₁, row, cs₂, h₂, heq⟩ := h
  cases heq
  have l₁ := length_of_after? h₁
  have l₂ := length_lt_of_row? h₂
  omega

theorem length_lt_of_conditionalStart? {cs rest : List Char} {p : Piece}
    (h : conditionalStart? cs = some (p, rest)) : rest.length < cs.length := by
  obtain ⟨⟨condition, rest'⟩, hread, heq⟩ := Option.map_eq_some_iff.1 h
  cases heq
  simp only [openedCondition?, Option.bind_eq_bind, Option.bind_eq_some_iff, Prod.exists] at hread
  obtain ⟨cs₁, h₁, condition, cs₂, h₂, cs₃, h₃, heq⟩ := hread
  cases heq
  have l₁ := length_lt_of_afterOne? h₁ (by simp)
  have l₂ := length_le_of_condition? h₂
  have l₃ := length_lt_of_afterOne? h₃ (by simp)
  omega

theorem length_lt_of_conditionalEnd? {cs rest : List Char} {p : Piece}
    (h : conditionalEnd? cs = some (p, rest)) : rest.length < cs.length := by
  obtain ⟨rest', hread, heq⟩ := Option.map_eq_some_iff.1 h
  cases heq
  simp only [afterConditionalEnd?, Option.bind_eq_bind, Option.bind_eq_some_iff] at hread
  obtain ⟨cs₁, h₁, cs₂, h₂, h₃⟩ := hread
  have l₁ := length_lt_of_afterOne? h₁ (by simp)
  have l₂ := length_of_after? h₂
  have l₃ := length_dropWhile_le isBlank cs₂
  have l₄ := length_lt_of_afterOne? h₃ (by simp)
  unfold skipBlanks at l₄
  omega

theorem length_lt_of_text? {cs rest : List Char} {p : Piece} (h : text? cs = some (p, rest)) :
    rest.length < cs.length := by
  simp only [text?, Option.orElse_eq_orElse, Option.orElse_eq_or, Option.or_eq_some_iff] at h
  rcases h with h | ⟨-, h⟩
  · obtain ⟨⟨row, rest'⟩, hrow, heq⟩ := Option.map_eq_some_iff.1 h
    cases heq
    exact length_lt_of_row? hrow
  · obtain ⟨rest', hafter, heq⟩ := Option.map_eq_some_iff.1 h
    cases heq
    have := length_of_after? hafter
    simp only [List.length_cons, List.length_nil] at this
    omega

/-- A piece takes at least one character. -/
theorem length_lt_of_piece? {cs rest : List Char} {p : Piece} (h : piece? cs = some (p, rest)) :
    rest.length < cs.length := by
  simp only [piece?, Option.orElse_eq_orElse, Option.orElse_eq_or, Option.or_eq_some_iff] at h
  rcases h with h | ⟨-, h | ⟨-, h | ⟨-, h | ⟨-, h | ⟨-, h⟩⟩⟩⟩⟩
  · exact length_lt_of_conditionalStart? h
  · exact length_lt_of_conditionalEnd? h
  · exact length_lt_of_comment? h
  · exact length_lt_of_endTag? h
  · exact length_lt_of_startTag? h
  · exact length_lt_of_text? h

/-- Every text that is not empty starts with a piece. -/
theorem piece?_isSome (c : Char) (cs : List Char) : (piece? (c :: cs)).isSome := by
  have htext : (text? (c :: cs)).isSome := by
    by_cases hc : c = '<'
    · subst hc
      simp [text?, after?]
    · simp [text?, row?, hc]
  simp [piece?, Option.orElse_eq_orElse, htext]

/-- All pieces of a text, each with the tag as it is written if it is a start tag. -/
def units (cs : List Char) : List (Piece × Option WrittenTag) :=
  match h : piece? cs with
  | none => []
  | some (p, rest) =>
    have : rest.length < cs.length := length_lt_of_piece? h
    (p, tagOf? cs p) :: units rest
termination_by cs.length

/-- All pieces of a text. -/
def pieces (cs : List Char) : List Piece :=
  (units cs).map Prod.fst

theorem units_of_piece? {cs rest : List Char} {p : Piece} (h : piece? cs = some (p, rest)) :
    units cs = (p, tagOf? cs p) :: units rest := by
  rw [units]
  split
  · next h' => rw [h] at h'; cases h'
  · next h' => rw [h] at h'; cases h'; rfl

theorem pieces_of_piece? {cs rest : List Char} {p : Piece} (h : piece? cs = some (p, rest)) :
    pieces cs = p :: pieces rest := by
  rw [pieces, units_of_piece? h]
  rfl

@[simp] theorem units_nil : units [] = [] := by
  rw [units]
  rfl

@[simp] theorem pieces_nil : pieces [] = [] := by
  rw [pieces, units_nil]
  rfl

end Reader

end MarkupFilter
