import MarkupFilter.Text.CharacterReference

/-!
# Escaped text is read as the text itself

Writing characters of a text as references does not change how its references are read, as long as
the characters of which references are made are left as they are: no reference reaches across one
that has been written.

## Main definitions

* `CharacterReference.isReferential` — the characters of which references are made.
* `CharacterReference.IsEscaping` — a way to write characters, some of them as references.

## Main results

* `CharacterReference.IsEscaping.reference?_flatMap` — the reference at the start of a text.
* `CharacterReference.IsEscaping.decodeFrom_flatMap` — a text in which characters are escaped.
* `CharacterReference.unescape_escapeAngles` — a text with escaped angle brackets.
* `CharacterReference.unescape_of_amp_not_mem` — a text without references.
-/

set_option autoImplicit false

namespace MarkupFilter

/-- What is said of the characters of a list is tested on these, not on all characters there are. -/
instance (priority := high) decidableForallMemChar (p : Char → Prop) [DecidablePred p]
    (cs : List Char) : Decidable (∀ c ∈ cs, p c) :=
  List.decidableBAll p cs

namespace CharacterReference

/-! ## Ways to escape characters -/

/-- A character of which references are made: their signs, the digits and the letters. -/
def isReferential (c : Char) : Bool :=
  c == '&' || c == '#' || c == ';' || c.isAlphanum

/-- Every character is written as itself, or as a reference to it; the characters of which
references are made are written as themselves. -/
structure IsEscaping (write : Char → List Char) : Prop where
  plain : ∀ c, isReferential c = true → write c = [c]
  spelled : ∀ c, write c = [c] ∨
    ∃ row, write c = '&' :: row ∧ ∀ rest, reference? (row ++ rest) = some (c, row.length)

/-- A digit is an ASCII digit or letter. -/
theorem isReferential_of_isDigit {base : Nat} {c : Char} (h : Numeral.isDigit base c = true) :
    isReferential c = true := by
  have hascii : c.isAlphanum = true := by
    refine Decidable.byContradiction fun hno => ?_
    replace hno : ¬ (c.isUpper || c.isLower || c.isDigit) = true := hno
    simp only [Bool.or_eq_true, not_or] at hno
    obtain ⟨⟨hupper, hlower⟩, hdigit⟩ := hno
    have hcapital : ¬ ('A' ≤ c && c ≤ 'Z') = true := fun h =>
      have hbounds := Bool.and_eq_true_iff.1 h
      hupper (decide_eq_true ⟨of_decide_eq_true hbounds.1, of_decide_eq_true hbounds.2⟩)
    have hnone : Numeral.digit? base c = none := by
      unfold Numeral.digit?
      rw [if_neg (show ¬ ('0' ≤ c && c ≤ '9') = true from hdigit),
        if_neg (show ¬ ('a' ≤ c && c ≤ 'z') = true from hlower), if_neg hcapital,
        if_neg (Nat.lt_irrefl base)]
    rw [Numeral.isDigit, hnone] at h
    cases h
  rw [isReferential, hascii, Bool.or_true]

theorem drop_takeWhile (p : Char → Bool) (cs : List Char) :
    cs.drop (cs.takeWhile p).length = cs.dropWhile p := by
  calc cs.drop (cs.takeWhile p).length
      = (cs.takeWhile p ++ cs.dropWhile p).drop (cs.takeWhile p).length := by
        rw [List.takeWhile_append_dropWhile]
    _ = cs.dropWhile p := List.drop_left

/-- The names of references are made of referential characters, and `&` is not among them. -/
theorem named_referential {name : List Char} {c : Char} (h : (name, c) ∈ named) :
    ∀ d ∈ name ++ [';'], isReferential d = true ∧ d ≠ '&' := by
  have hall : ∀ entry ∈ named, ∀ d ∈ entry.1 ++ [';'], isReferential d = true ∧ d ≠ '&' := by
    decide
  exact hall _ h

/-- The reference with a name at the start of a text. -/
def named? (cs : List Char) : Option (Char × Nat) :=
  named.findSome? fun (name, c) =>
    if (name ++ [';']).isPrefixOf cs then some (c, name.length + 1) else none

theorem reference?_number {rest : List Char} (h : rest.head? ≠ some 'x' ∧ rest.head? ≠ some 'X') :
    reference? ('#' :: rest) = numeric? 10 0 rest := by
  cases rest with
  | nil => rfl
  | cons c rest =>
    rw [reference?]
    · rintro rest' ⟨⟩
      exact h.1 rfl
    · rintro rest' ⟨⟩
      exact h.2 rfl

theorem reference?_name {cs : List Char} (h : cs.head? ≠ some '#') : reference? cs = named? cs := by
  rw [reference?, named?]
  · rintro rest rfl
    exact h rfl
  · rintro rest rfl
    exact h rfl
  · rintro rest rfl
    exact h rfl

theorem decodeFrom_eq_drop (n : Nat) (cs : List Char) :
    decodeFrom n cs = decodeFrom 0 (cs.drop n) := by
  induction n generalizing cs with
  | zero => rfl
  | succ n ih =>
    cases cs with
    | nil => rw [decodeFrom, List.drop_nil, decodeFrom]
    | cons c cs => rw [decodeFrom, List.drop_succ_cons, ih]

/-! ## What references become -/

namespace IsEscaping

variable {write : Char → List Char} (hwrite : IsEscaping write)

include hwrite

/-- A character that is not written as itself is written as a reference, and references are not made
of it. -/
theorem written (c : Char) : write c = [c] ∨ isReferential c = false ∧
    ∃ row, write c = '&' :: row ∧ ∀ rest, reference? (row ++ rest) = some (c, row.length) := by
  rcases hwrite.spelled c with hself | hrow
  · exact .inl hself
  · cases hc : isReferential c with
    | true => exact .inl (hwrite.plain c hc)
    | false => exact .inr ⟨rfl, hrow⟩

/-- An escaped text begins in the same way: with the same character, or with an `&` in place of one
of which no reference is made. -/
theorem head?_flatMap (cs : List Char) : (cs.flatMap write).head? = cs.head? ∨
    (∀ c ∈ cs.head?, isReferential c = false) ∧ (cs.flatMap write).head? = some '&' := by
  cases cs with
  | nil => exact .inl rfl
  | cons c cs =>
    rcases hwrite.written c with hself | ⟨hc, row, hrow, -⟩
    · left
      rw [List.flatMap_cons, hself]
      rfl
    · refine .inr ⟨?_, ?_⟩
      · rintro d ⟨⟩
        exact hc
      · rw [List.flatMap_cons, hrow]
        rfl

theorem head?_flatMap_iff {d : Char} (hd : isReferential d = true) (hamp : d ≠ '&')
    (cs : List Char) : (cs.flatMap write).head? = some d ↔ cs.head? = some d := by
  rcases hwrite.head?_flatMap cs with heq | ⟨hhead, heq⟩
  · rw [heq]
  · refine ⟨fun h => ?_, fun h => ?_⟩
    · rw [heq] at h
      exact absurd (Option.some.inj h).symm hamp
    · rw [hhead d h] at hd
      cases hd

/-- A row of referential characters of a kind to which `&` does not belong is the same in an escaped
text, and so is what follows it. -/
theorem takeWhile_flatMap {p : Char → Bool} (hp : ∀ c, p c = true → isReferential c = true)
    (hamp : p '&' = false) (cs : List Char) :
    (cs.flatMap write).takeWhile p = cs.takeWhile p ∧
      (cs.flatMap write).dropWhile p = (cs.dropWhile p).flatMap write := by
  induction cs with
  | nil => exact ⟨rfl, rfl⟩
  | cons c cs ih =>
    rcases hwrite.written c with hself | ⟨hc, row, hrow, -⟩
    · rw [List.flatMap_cons, hself, List.singleton_append]
      by_cases hpc : p c = true
      · simp [hpc, ih]
      · simp [hpc, hself]
    · have hpc : ¬ p c = true := fun h => by
        rw [hp c h] at hc
        cases hc
      simp [hrow, hamp, hpc]

/-- A row of referential characters other than `&` stands at the start of an escaped text if it
stands at the start of the text. -/
theorem isPrefixOf_flatMap {name : List Char}
    (hname : ∀ c ∈ name, isReferential c = true ∧ c ≠ '&') (cs : List Char) :
    name.isPrefixOf (cs.flatMap write) = name.isPrefixOf cs := by
  induction name generalizing cs with
  | nil => simp
  | cons d name ih =>
    obtain ⟨hd, hamp⟩ := hname d (List.mem_cons_self ..)
    cases cs with
    | nil => rfl
    | cons c cs =>
      rcases hwrite.written c with hself | ⟨hc, row, hrow, -⟩
      · rw [List.flatMap_cons, hself, List.singleton_append, List.isPrefixOf, List.isPrefixOf,
          ih fun e he => hname e (List.mem_cons_of_mem _ he)]
      · have hdc : d ≠ c := by
          rintro rfl
          rw [hd] at hc
          cases hc
        simp [hrow, List.isPrefixOf, beq_eq_false_iff_ne.2 hamp, beq_eq_false_iff_ne.2 hdc]

/-- What follows a row of referential characters. -/
theorem drop_flatMap_append {row : List Char} (h : ∀ c ∈ row, isReferential c = true)
    (cs : List Char) : ((row ++ cs).flatMap write).drop row.length = cs.flatMap write := by
  have hrow : row.flatMap write = row := by
    induction row with
    | nil => rfl
    | cons c row ih =>
      rw [List.flatMap_cons, hwrite.plain c (h c (List.mem_cons_self ..)), List.singleton_append,
        ih fun d hd => h d (List.mem_cons_of_mem _ hd)]
  rw [List.flatMap_append, hrow, List.drop_left]

/-- A number is the same, and what follows it. -/
theorem numeric?_flatMap {base : Nat} (hbase : base = 10 ∨ base = 16) (skipped : Nat)
    (cs : List Char) :
    numeric? base skipped (cs.flatMap write) = numeric? base skipped cs ∧
      ∀ c n, numeric? base skipped cs = some (c, n) → ∃ k, n = 1 + skipped + k ∧
        (cs.flatMap write).drop k = (cs.drop k).flatMap write := by
  have hamp : Numeral.isDigit base '&' = false := by rcases hbase with rfl | rfl <;> decide
  obtain ⟨htake, hdrop⟩ :=
    hwrite.takeWhile_flatMap (fun _ => isReferential_of_isDigit) hamp cs
  have hdigits : Numeral.leading base (cs.flatMap write) = Numeral.leading base cs := htake
  have hrest : (cs.flatMap write).drop (Numeral.leading base cs).length =
      (cs.drop (Numeral.leading base cs).length).flatMap write := by
    rw [← hdigits]
    simp only [Numeral.leading, drop_takeWhile, hdrop]
    rw [htake, drop_takeWhile]
  -- a semicolon follows the digits, or it does not
  have hhead := hwrite.head?_flatMap_iff (d := ';') (by decide) (by decide)
    (cs.drop (Numeral.leading base cs).length)
  refine ⟨?_, fun c n h => ?_⟩
  · simp only [numeric?, hdigits, hrest, hhead]
  · unfold numeric? at h
    dsimp only at h
    split at h
    · cases h
    · cases h
      refine ⟨_, Nat.add_assoc _ _ _, ?_⟩
      split
      · next hsemicolon =>
        obtain ⟨rest, heq⟩ : ∃ rest, cs.drop (Numeral.leading base cs).length = ';' :: rest :=
          List.head?_eq_some_iff.1 hsemicolon
        rw [← List.drop_drop, hrest, ← List.drop_drop, heq, List.flatMap_cons,
          hwrite.plain ';' (by decide)]
        rfl
      · exact hrest

/-- A reference with a name is the same, and what follows it. -/
theorem named?_flatMap (cs : List Char) :
    named? (cs.flatMap write) = named? cs ∧ ∀ c n, named? cs = some (c, n) →
      (cs.flatMap write).drop n = (cs.drop n).flatMap write := by
  refine ⟨?_, fun c n h => ?_⟩
  · have hall : ∀ entries : List (List Char × Char), (∀ entry ∈ entries, entry ∈ named) →
        (entries.findSome? fun (name, c) => if (name ++ [';']).isPrefixOf (cs.flatMap write)
          then some (c, name.length + 1) else none) =
        entries.findSome? fun (name, c) => if (name ++ [';']).isPrefixOf cs
          then some (c, name.length + 1) else none := by
      intro entries hentries
      induction entries with
      | nil => rfl
      | cons entry entries ih =>
        obtain ⟨name, c⟩ := entry
        have hone := hwrite.isPrefixOf_flatMap
          (named_referential (hentries (name, c) (List.mem_cons_self ..))) cs
        rw [List.findSome?_cons, List.findSome?_cons]
        dsimp only
        rw [hone, ih fun e he => hentries e (List.mem_cons_of_mem _ he)]
    exact hall named fun _ h => h
  · obtain ⟨⟨name, c'⟩, hmem, heq⟩ := List.exists_of_findSome?_eq_some h
    dsimp only at heq
    split at heq
    · next hisPrefix =>
      cases heq
      obtain ⟨rest, rfl⟩ := List.isPrefixOf_iff_prefix.1 hisPrefix
      have hlength : name.length + 1 = (name ++ [';']).length := by simp
      rw [hlength, hwrite.drop_flatMap_append fun d hd => (named_referential hmem d hd).1,
        List.drop_left]
    · cases heq

/-- **The reference at the start of a text** is the same once the text is escaped, and so is what
follows it. -/
theorem reference?_flatMap (cs : List Char) :
    reference? (cs.flatMap write) = reference? cs ∧
      ∀ c n, reference? cs = some (c, n) →
        (cs.flatMap write).drop n = (cs.drop n).flatMap write := by
  by_cases hhash : cs.head? = some '#'
  · obtain ⟨rest, rfl⟩ := List.head?_eq_some_iff.1 hhash
    rw [List.flatMap_cons, hwrite.plain '#' (by decide), List.singleton_append]
    -- a number in base 16 has one more sign before its digits
    have hsixteen : ∀ x, isReferential x = true → (∀ cs, reference? ('#' :: x :: cs) =
        numeric? 16 1 cs) → ∀ digits, rest = x :: digits →
        reference? ('#' :: rest.flatMap write) = reference? ('#' :: rest) ∧
          ∀ c n, reference? ('#' :: rest) = some (c, n) →
            ('#' :: rest.flatMap write).drop n = (('#' :: rest).drop n).flatMap write := by
      rintro x hx hread digits rfl
      obtain ⟨heq, hdrop⟩ := hwrite.numeric?_flatMap (.inr rfl) 1 digits
      rw [List.flatMap_cons, hwrite.plain x hx, List.singleton_append, hread, hread]
      refine ⟨heq, fun c n h => ?_⟩
      obtain ⟨k, rfl, hk⟩ := hdrop c n h
      rw [Nat.add_comm]
      exact hk
    by_cases hx : rest.head? = some 'x'
    · obtain ⟨digits, hrest⟩ := List.head?_eq_some_iff.1 hx
      exact hsixteen 'x' (by decide) (fun _ => rfl) digits hrest
    by_cases hX : rest.head? = some 'X'
    · obtain ⟨digits, hrest⟩ := List.head?_eq_some_iff.1 hX
      exact hsixteen 'X' (by decide) (fun _ => rfl) digits hrest
    have hx' : (rest.flatMap write).head? ≠ some 'x' :=
      mt (hwrite.head?_flatMap_iff (by decide) (by decide) rest).1 hx
    have hX' : (rest.flatMap write).head? ≠ some 'X' :=
      mt (hwrite.head?_flatMap_iff (by decide) (by decide) rest).1 hX
    obtain ⟨heq, hdrop⟩ := hwrite.numeric?_flatMap (.inl rfl) 0 rest
    rw [reference?_number ⟨hx', hX'⟩, reference?_number ⟨hx, hX⟩]
    refine ⟨heq, fun c n h => ?_⟩
    obtain ⟨k, rfl, hk⟩ := hdrop c n h
    rw [Nat.add_comm]
    exact hk
  · have hflat : (cs.flatMap write).head? ≠ some '#' :=
      mt (hwrite.head?_flatMap_iff (by decide) (by decide) cs).1 hhash
    rw [reference?_name hflat, reference?_name hhash]
    exact hwrite.named?_flatMap cs

/-- **An escaped text is read as the text itself.** The induction is on the length of the text: a
reference is read at once, and what follows it is a shorter text. -/
theorem decodeFrom_flatMap (cs : List Char) :
    decodeFrom 0 (cs.flatMap write) = decodeFrom 0 cs := by
  induction hn : cs.length using Nat.strongRecOn generalizing cs with
  | _ n ih =>
    cases cs with
    | nil => rfl
    | cons c cs =>
      have hrest := ih cs.length (by rw [← hn]; exact Nat.lt_succ_self _) cs rfl
      rw [List.flatMap_cons]
      rcases hwrite.written c with hself | ⟨hc, row, hrow, hread⟩
      · rw [hself, List.singleton_append, decodeFrom, decodeFrom, hrest]
        obtain ⟨hreference, hdrop⟩ := hwrite.reference?_flatMap cs
        rw [hreference]
        split
        · cases href : reference? cs with
          | none => rfl
          | some r =>
            obtain ⟨d, length⟩ := r
            dsimp only
            rw [decodeFrom_eq_drop, decodeFrom_eq_drop length cs, hdrop d length href]
            rw [ih (cs.drop length).length (by
              rw [← hn, List.length_drop, List.length_cons]
              omega) _ rfl]
        · rfl
      · have hamp : c ≠ '&' := by
          rintro rfl
          cases hc
        rw [hrow, List.cons_append, decodeFrom, if_pos rfl, hread, decodeFrom, if_neg hamp]
        dsimp only
        rw [decodeFrom_eq_drop, List.drop_left, hrest]

end IsEscaping

/-! ## Texts -/

theorem escapeAngle_of_ne {c : Char} (hleft : c ≠ '<') (hright : c ≠ '>') :
    escapeAngle c = [c] := by
  unfold escapeAngle
  split
  · contradiction
  · contradiction
  · rfl

theorem isEscaping_escapeAngle : IsEscaping escapeAngle where
  plain c hc := by
    unfold escapeAngle
    split
    · cases hc
    · cases hc
    · rfl
  spelled c := by
    unfold escapeAngle
    split
    · exact .inr ⟨_, rfl, fun _ => rfl⟩
    · exact .inr ⟨_, rfl, fun _ => rfl⟩
    · exact .inl rfl

/-- A text without `&` is read as it is. -/
theorem unescape_of_amp_not_mem {s : String} (h : '&' ∉ s.toList) : unescape s = s := by
  have hall : ∀ cs : List Char, '&' ∉ cs → decodeFrom 0 cs = cs := by
    intro cs hcs
    induction cs with
    | nil => rfl
    | cons c cs ih =>
      have hc : c ≠ '&' := fun heq => hcs (heq ▸ List.mem_cons_self ..)
      rw [decodeFrom, if_neg hc, ih fun hmem => hcs (List.mem_cons_of_mem _ hmem)]
  rw [unescape, hall _ h, String.ofList_toList]

/-- **A text with escaped angle brackets is read as the text itself.** -/
theorem unescape_escapeAngles (s : String) : unescape (escapeAngles s) = unescape s := by
  rw [unescape, escapeAngles, String.toList_ofList, isEscaping_escapeAngle.decodeFrom_flatMap]
  rfl

end CharacterReference

end MarkupFilter
