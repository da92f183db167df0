import MarkupFilter.Proofs.Text.References

/-!
# Spelled-out characters

A character can stand for itself, or it can be written as a reference: by a decimal or hexadecimal
number with any number of leading zeros, closed by a semicolon or by whatever cannot belong to it, or
by a name. However characters are spelled, reading the text gives them back, and what follows them is
read as if it stood alone.

## Main definitions

* `CharacterReference.Refers` — what stands after an `&` refers to a character.
* `CharacterReference.Spells` — a text spells out some characters before another text.

## Main results

* `CharacterReference.reference?_of_refers` — the reference at the start of a text is read.
* `CharacterReference.decodeFrom_of_spells` — spelled-out characters are read.
-/

set_option autoImplicit false

namespace MarkupFilter

theorem Numeral.scalar?_toNat (c : Char) : scalar? c.toNat = some c := by
  have hvalid : c.toNat < 0xD800 ∨ 0xDFFF < c.toNat ∧ c.toNat < 0x110000 := c.valid
  have hcond : (decide (c.toNat < 0xD800) ||
      (decide (0xDFFF < c.toNat) && decide (c.toNat < 0x110000))) = true := by
    simpa using hvalid
  rw [scalar?, if_pos hcond, Char.ofNat_toNat]

namespace CharacterReference

variable {names : List (List Char × Char)}

/-! ## Spellings -/

/-- The digits write the code point of `c`. -/
structure IsNumber (base : Nat) (c : Char) (digits : List Char) : Prop where
  ne_nil : digits ≠ []
  isDigit : ∀ d ∈ digits, Numeral.isDigit base d = true
  value : Numeral.value base digits = c.toNat

/-- How a number ends: with a semicolon, or with nothing if what follows does not belong to it. -/
inductive EndsNumber (base : Nat) (rest : List Char) : List Char → Prop
  | semicolon : EndsNumber base rest [';']
  | nothing : (∀ d, rest.head? = some d → Numeral.isDigit base d = false ∧ d ≠ ';') →
      EndsNumber base rest []

/-- The row of characters after an `&` and before `rest` refers to `c`. -/
inductive Refers (names : List (List Char × Char)) (rest : List Char) (c : Char) :
    List Char → Prop
  | decimal (digits ending : List Char) :
      IsNumber 10 c digits → EndsNumber 10 rest ending →
        Refers names rest c ('#' :: (digits ++ ending))
  | hexadecimal (x : Char) (digits ending : List Char) :
      x = 'x' ∨ x = 'X' → IsNumber 16 c digits → EndsNumber 16 rest ending →
        Refers names rest c ('#' :: x :: (digits ++ ending))
  | name (name : List Char) : (name, c) ∈ names → Refers names rest c (name ++ [';'])

/-- `Spells names rest cs text`: the text spells out the characters `cs` before it goes on with
`rest`. -/
inductive Spells (names : List (List Char × Char)) (rest : List Char) :
    List Char → List Char → Prop
  | nil : Spells names rest [] rest
  | plain (c : Char) (cs text : List Char) :
      c ≠ '&' → Spells names rest cs text → Spells names rest (c :: cs) (c :: text)
  | reference (c : Char) (row cs text : List Char) :
      Refers names text c row → Spells names rest cs text →
        Spells names rest (c :: cs) ('&' :: (row ++ text))

/-! ## Reading -/

theorem numeric?_of_isNumber {base : Nat} (hbase : base = 10 ∨ base = 16) {c : Char}
    {digits ending rest : List Char} (hdigits : IsNumber base c digits)
    (hending : EndsNumber base rest ending) (skipped : Nat) :
    numeric? base skipped (digits ++ (ending ++ rest)) =
      some (c, 1 + skipped + (digits ++ ending).length) := by
  have hsemicolon : Numeral.isDigit base ';' = false := by rcases hbase with rfl | rfl <;> decide
  have hstop : (ending ++ rest).takeWhile (Numeral.isDigit base) = [] := by
    cases hending with
    | semicolon => exact List.takeWhile_cons_of_neg (by rw [hsemicolon]; decide)
    | nothing hrest =>
      cases rest with
      | nil => rfl
      | cons d rest => exact List.takeWhile_cons_of_neg (by rw [(hrest d rfl).1]; decide)
  have hleading : Numeral.leading base (digits ++ (ending ++ rest)) = digits := by
    rw [Numeral.leading, List.takeWhile_append_of_pos hdigits.isDigit, hstop, List.append_nil]
  have hchar : Numeral.char? base digits = some c := by
    have hpos : 0 < base := by rcases hbase with rfl | rfl <;> decide
    rw [Numeral.char?_eq hpos, if_neg (by simpa using hdigits.ne_nil), hdigits.value,
      Numeral.scalar?_toNat]
  have hclosed : (if (ending ++ rest).head? = some ';' then 1 else 0) = ending.length := by
    cases hending with
    | semicolon => rfl
    | nothing hrest =>
      cases rest with
      | nil => rfl
      | cons d rest => exact if_neg fun heq => (hrest d rfl).2 (Option.some.inj heq)
  unfold numeric?
  dsimp only
  rw [hleading, hchar, List.drop_left, hclosed, List.length_append, ← Nat.add_assoc]

theorem reference?_of_mem_named {name : List Char} {c : Char} (h : (name, c) ∈ named) (rest : List Char) :
    reference? (name ++ [';'] ++ rest) = some (c, name.length + 1) := by
  simp only [named, List.mem_cons, List.not_mem_nil, or_false, Prod.mk.injEq] at h
  rcases h with ⟨rfl, rfl⟩ | ⟨rfl, rfl⟩ | ⟨rfl, rfl⟩ | ⟨rfl, rfl⟩ | ⟨rfl, rfl⟩ | ⟨rfl, rfl⟩ |
    ⟨rfl, rfl⟩ | ⟨rfl, rfl⟩ | ⟨rfl, rfl⟩ <;> rfl

/-- **The reference at the start of a text is read**, and no more than it. -/
theorem reference?_of_refers (hnames : ∀ entry ∈ names, entry ∈ named) {c : Char}
    {row rest : List Char} (h : Refers names rest c row) :
    reference? (row ++ rest) = some (c, row.length) := by
  cases h with
  | decimal digits ending hdigits hending =>
    have hhead : ∀ x, Numeral.isDigit 10 x = false →
        (digits ++ (ending ++ rest)).head? ≠ some x := by
      intro x hx heq
      cases digits with
      | nil => exact hdigits.ne_nil rfl
      | cons d digits =>
        obtain rfl : d = x := Option.some.inj heq
        rw [hdigits.isDigit d (List.mem_cons_self ..)] at hx
        cases hx
    rw [List.cons_append, List.append_assoc, reference?_number ⟨hhead 'x' rfl, hhead 'X' rfl⟩,
      numeric?_of_isNumber (.inl rfl) hdigits hending, List.length_cons, Nat.add_zero, Nat.add_comm]
  | hexadecimal x digits ending hx hdigits hending =>
    have hread : reference? ('#' :: x :: (digits ++ (ending ++ rest))) =
        numeric? 16 1 (digits ++ (ending ++ rest)) := by
      rcases hx with rfl | rfl <;> rfl
    rw [List.cons_append, List.cons_append, List.append_assoc, hread,
      numeric?_of_isNumber (.inr rfl) hdigits hending, List.length_cons, List.length_cons,
      Nat.add_comm (1 + 1)]
  | name name hname =>
    rw [reference?_of_mem_named (hnames _ hname), List.length_append, List.length_singleton]

/-- **Spelled-out characters are read**, and then what follows them. -/
theorem decodeFrom_of_spells (hnames : ∀ entry ∈ names, entry ∈ named) {cs rest text : List Char}
    (h : Spells names rest cs text) : decodeFrom 0 text = cs ++ decodeFrom 0 rest := by
  induction h with
  | nil => rfl
  | plain c cs text hc _ ih => rw [decodeFrom, if_neg hc, ih, List.cons_append]
  | reference c row cs text hrow _ ih =>
    rw [decodeFrom, if_pos rfl, reference?_of_refers hnames hrow]
    dsimp only
    rw [decodeFrom_eq_drop, List.drop_left, ih, List.cons_append]

end CharacterReference

end MarkupFilter
