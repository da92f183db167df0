import MarkupFilter.RuleText.Lexing

/-!
# Where lexemes stand

Every lexeme that is read stands at its place in the text, and so does whatever stops the reading.
Of a faulty code point the sign `#x` stands at the place that is reported; within a set of
characters, however, it stands right before that place.

## Main definitions

* `Lexeme.StandsAt` — a text starts as a lexeme is written.
* `GrammarError.offset?` — the place that an error reports.
* `GrammarError.PointsAt` — what an error blames starts where the text is split.

## Main results

* `lexesIn_lexemes` — the lexemes of a text stand at their places, and a text that cannot be read
  is faulty at the place reported.
-/

set_option autoImplicit false

namespace MarkupFilter

open RuleText

/-! ## What stands at a place -/

/-- How a lexeme is written, or how it begins if it can be written in many ways. -/
def RuleText.Lexeme.beginnings : Lexeme → List (List Char)
  | .name text => [text.toList]
  | .define => [[':', ':', '=']]
  | .literal text => [['\''] ++ text.toList ++ ['\''], ['"'] ++ text.toList ++ ['"']]
  | .charSet _ => [['[']]
  | .charCode _ => [['#', 'x']]
  | .openGroup => [['(']]
  | .closeGroup => [[')']]
  | .bar => [['|']]
  | .minus => [['-']]
  | .question => [['?']]
  | .star => [['*']]
  | .plus => [['+']]

/-- The text starts as the lexeme is written. -/
def RuleText.Lexeme.StandsAt (lexeme : Lexeme) (cs : List Char) : Prop :=
  ∃ beginning ∈ lexeme.beginnings, beginning ≠ [] ∧ beginning <+: cs

/-- No character has the code point whose digits the text starts with, or there are no digits. -/
def RuleText.IsFaultyCode (cs : List Char) : Prop :=
  Numeral.char? 16 (Numeral.leading 16 cs) = none

/-- The text ends in the sign of a code point within a set of characters that is still open. -/
def RuleText.EndsInSet (before : List Char) : Prop :=
  ∃ start inside, before = start ++ '[' :: (inside ++ ['#', 'x']) ∧ ']' ∉ inside

/-- The place, in bytes, that an error reports. -/
def GrammarError.offset? : GrammarError → Option Nat
  | .unterminatedGroup offset | .unterminatedLiteral offset | .unterminatedCharClass offset
  | .unknownOperator _ offset | .unexpectedToken _ offset | .invalidCharCode offset => some offset
  | .missingDefinition _ | .duplicateRule _ | .undefinedRule .. | .unknownStartRule _
  | .emptyGrammar => none

/-- What the error blames starts where a text is split into `before` and `after`. A code point in a
set of characters is blamed at its digits, any other at its sign. -/
def GrammarError.PointsAt (before after : List Char) : GrammarError → Prop
  | .unterminatedGroup _ => ['('] <+: after
  | .unterminatedLiteral _ => ['\''] <+: after ∨ ['"'] <+: after
  | .unterminatedCharClass _ => ['['] <+: after
  | .unknownOperator found _ => [found] <+: after
  | .unexpectedToken (.lexeme found) _ => found.StandsAt after
  | .unexpectedToken .endOfInput _ => after = []
  | .unexpectedToken .unterminatedComment _ => ['/', '*'] <+: after
  | .invalidCharCode _ => (∃ digits, after = '#' :: 'x' :: digits ∧ IsFaultyCode digits) ∨
      EndsInSet before ∧ IsFaultyCode after
  | _ => False

/-- The error reports a place in the text `cs`, of which `offset` is the place, and points at what
it blames there. -/
def GrammarError.LocatedIn (offset : Nat) (cs : List Char) (e : GrammarError) : Prop :=
  ∃ before after, cs = before ++ after ∧ e.offset? = some (offset + Utf8.size before) ∧
    e.PointsAt before after

/-- The lexeme stands at its place in the text `cs`, of which `offset` is the place. -/
def RuleText.Located.StandsIn (offset : Nat) (cs : List Char) (l : Located) : Prop :=
  ∃ before after, cs = before ++ after ∧ l.offset = offset + Utf8.size before ∧
    l.lexeme.StandsAt after

section

variable {offset : Nat} {cs : List Char} {e : GrammarError}

theorem RuleText.EndsInSet.cons {before : List Char} (h : EndsInSet before) (c : Char) :
    EndsInSet (c :: before) := by
  obtain ⟨start, inside, rfl, hinside⟩ := h
  exact ⟨c :: start, inside, rfl, hinside⟩

theorem GrammarError.PointsAt.cons {before after : List Char} (h : e.PointsAt before after)
    (c : Char) : e.PointsAt (c :: before) after := by
  cases e with
  | invalidCharCode => exact h.imp_right fun ⟨hset, hfaulty⟩ => ⟨hset.cons c, hfaulty⟩
  | unexpectedToken found => cases found <;> exact h
  | _ => exact h

theorem GrammarError.LocatedIn.cons {c : Char} (h : e.LocatedIn (offset + c.utf8Size) cs) :
    e.LocatedIn offset (c :: cs) := by
  obtain ⟨before, after, rfl, hoffset, hpoints⟩ := h
  refine ⟨c :: before, after, rfl, ?_, hpoints.cons c⟩
  rw [hoffset, Utf8.size_cons, Nat.add_assoc]

/-- An error that reports the start of the text is located there if it points at it. -/
theorem locatedIn_of_pointsAt (h : e.PointsAt [] cs) (hoffset : e.offset? = some offset) :
    e.LocatedIn offset cs :=
  ⟨[], cs, rfl, hoffset, h⟩

theorem RuleText.Located.StandsIn.cons {c : Char} {l : Located}
    (h : l.StandsIn (offset + c.utf8Size) cs) : l.StandsIn offset (c :: cs) := by
  obtain ⟨before, after, rfl, hoffset, hstands⟩ := h
  refine ⟨c :: before, after, rfl, ?_, hstands⟩
  rw [hoffset, Utf8.size_cons, Nat.add_assoc]

end

namespace RuleText

open Grammar

/-! ## Sets of characters -/

theorem codePoint_eq_error {offset : Nat} {cs : List Char} {e : GrammarError}
    (h : codePoint offset cs = .error e) : e = .invalidCharCode offset ∧ IsFaultyCode cs := by
  unfold codePoint at h
  dsimp only at h
  split at h
  · cases h
  · next hnone =>
    cases h
    exact ⟨rfl, hnone⟩

theorem codePoint_eq_ok {offset : Nat} {cs : List Char} {c : Char} {n : Nat}
    (h : codePoint offset cs = .ok (c, n)) : n = (Numeral.leading 16 cs).length := by
  unfold codePoint at h
  dsimp only at h
  split at h
  · cases h
    rfl
  · cases h

/-- The error blames a code point in `cs`, where the text up to its sign does not close a set. -/
def FaultyIn (offset : Nat) (cs : List Char) (e : GrammarError) : Prop :=
  ∃ inside digits, cs = inside ++ '#' :: 'x' :: digits ∧ ']' ∉ inside ∧ IsFaultyCode digits ∧
    e = .invalidCharCode (offset + Utf8.size inside + 2)

theorem FaultyIn.append (row : List Char) {offset : Nat} {cs : List Char} {e : GrammarError}
    (h : FaultyIn (offset + Utf8.size row) cs e) (hrow : ']' ∉ row) :
    FaultyIn offset (row ++ cs) e := by
  obtain ⟨inside, digits, rfl, hinside, hfaulty, rfl⟩ := h
  refine ⟨row ++ inside, digits, (List.append_assoc ..).symm, ?_, hfaulty, ?_⟩
  · simp [hrow, hinside]
  · rw [Utf8.size_append, Nat.add_assoc offset]

/-- The outcome of reading a part of a set from the front of `cs`: a code point in `cs` is blamed,
or no closing bracket is taken in. -/
def ReadsInSet {α : Type} (offset : Nat) (cs : List Char) : Except GrammarError (α × Nat) → Prop
  | .error e => FaultyIn offset cs e
  | .ok (_, n) => ']' ∉ cs.take n

theorem readsInSet_setChar (offset : Nat) {c : Char} (rest : List Char) (hc : c ≠ ']') :
    ReadsInSet offset (c :: rest) (setChar offset (c :: rest)) := by
  unfold setChar
  split
  · next digits hcs =>
    obtain ⟨rfl, rfl⟩ := List.cons.inj hcs
    cases hcode : codePoint (offset + 2) digits with
    | error e =>
      obtain ⟨rfl, hfaulty⟩ := codePoint_eq_error hcode
      exact ⟨[], digits, rfl, by simp, hfaulty, rfl⟩
    | ok found =>
      show ']' ∉ ('#' :: 'x' :: digits).take (found.2 + 2)
      rw [codePoint_eq_ok hcode, List.take_succ_cons, List.take_succ_cons, Numeral.leading,
        List.mem_cons, List.mem_cons, not_or, not_or]
      refine ⟨by decide, by decide, fun hmem => ?_⟩
      have hprefix := List.takeWhile_prefix (Numeral.isDigit 16) (l := digits)
      rw [← List.prefix_iff_eq_take.1 hprefix] at hmem
      exact absurd (List.all_eq_true.1 List.all_takeWhile _ hmem) (by decide)
  · next hcs =>
    obtain ⟨rfl, rfl⟩ := List.cons.inj hcs
    simpa [ReadsInSet, eq_comm] using hc
  · next hcs => cases hcs

theorem readsInSet_setRange (offset : Nat) {c : Char} (rest : List Char) (hc : c ≠ ']') :
    ReadsInSet offset (c :: rest) (setRange offset (c :: rest)) := by
  have hlow := readsInSet_setChar offset rest hc
  generalize c :: rest = cs at hlow ⊢
  unfold setRange
  cases hread : setChar offset cs with
  | error e =>
    rw [hread] at hlow
    exact hlow
  | ok found =>
    obtain ⟨low, n⟩ := found
    rw [hread] at hlow
    simp only [bind, Except.bind]
    split
    · next next more hdash =>
      split
      · exact hlow
      next hnext =>
      -- the text splits behind the dash
      have hdrop : cs.drop (n + 1) = next :: more := by
        rw [← List.drop_drop, hdash]
        rfl
      have htake : ']' ∉ cs.take (n + 1) := by
        rw [List.take_add, hdash]
        simpa using (show ']' ∉ cs.take n from hlow)
      have hhigh := readsInSet_setChar (offset + Utf8.size (cs.take (n + 1))) more hnext
      split
      · next hread =>
        rw [hread] at hhigh
        have hfaulty := FaultyIn.append _ hhigh htake
        rwa [← hdrop, List.take_append_drop] at hfaulty
      · next found hread =>
        rw [hread] at hhigh
        show ']' ∉ cs.take (n + 1 + found.2)
        rw [List.take_add, hdrop]
        exact fun hmem => (List.mem_append.1 hmem).elim htake hhigh
    · exact hlow

/-- What stops the reading of a set is the end of the text, or a code point in the set. The first
`skip` characters belong to a range that is read already. -/
theorem setRanges_eq_error {opened skip offset taken : Nat} {ranges : List (Char × Char)}
    {cs : List Char} {e : GrammarError} (hskip : ']' ∉ cs.take skip)
    (h : setRanges opened skip offset taken ranges cs = .error e) :
    e = .unterminatedCharClass opened ∨ FaultyIn offset cs e := by
  induction cs generalizing skip offset taken ranges with
  | nil =>
    unfold setRanges at h
    cases h
    exact .inl rfl
  | cons c rest ih =>
    have hcons (hc : c ≠ ']') (hrest : FaultyIn (offset + c.utf8Size) rest e) :
        FaultyIn offset (c :: rest) e :=
      FaultyIn.append [c] (by simpa using hrest) (by simpa using hc.symm)
    cases skip with
    | succ skip =>
      rw [List.take_succ_cons, List.mem_cons, not_or] at hskip
      rw [setRanges] at h
      exact (ih hskip.2 h).imp_right (hcons (Ne.symm hskip.1))
    | zero =>
      rw [setRanges] at h
      split at h
      · cases h
      next hc =>
      have hrange := readsInSet_setRange offset rest hc
      split at h
      · next hread =>
        cases h
        rw [hread] at hrange
        exact .inr hrange
      · next n hread =>
        rw [hread] at hrange
        refine (ih ?_ h).imp_right (hcons hc)
        cases n with
        | zero => simp
        | succ n => exact fun hmem => hrange (List.mem_cons_of_mem _ hmem)

theorem charSet_eq_error {opened : Nat} {cs : List Char} {e : GrammarError}
    (h : charSet opened cs = .error e) :
    e = .unterminatedCharClass opened ∨ FaultyIn (opened + 1) cs e := by
  unfold charSet at h
  split at h
  · next hhead =>
    obtain ⟨rest, rfl⟩ := List.head?_eq_some_iff.1 hhead
    cases hranges : setRanges opened 0 (opened + 2) 0 [] rest with
    | ok found => simp [hranges, bind, Except.bind, pure, Except.pure] at h
    | error e' =>
      simp only [List.drop_succ_cons, List.drop_zero, hranges, bind, Except.bind,
        Except.error.injEq] at h
      subst h
      exact (setRanges_eq_error (by simp) hranges).imp_right fun hfaulty =>
        FaultyIn.append ['^'] hfaulty (by decide)
  · cases hranges : setRanges opened 0 (opened + 1) 0 [] cs with
    | ok found => simp [hranges, bind, Except.bind, pure, Except.pure] at h
    | error e' =>
      simp only [hranges, bind, Except.bind, Except.error.injEq] at h
      subst h
      exact setRanges_eq_error (by simp) hranges

/-- A set that cannot be read is blamed at its bracket, or a code point in it at its digits. -/
theorem locatedIn_of_charSet {offset : Nat} {rest : List Char} {e : GrammarError}
    (h : charSet offset rest = .error e) : e.LocatedIn offset ('[' :: rest) := by
  rcases charSet_eq_error h with rfl | ⟨inside, digits, rfl, hinside, hfaulty, rfl⟩
  · exact locatedIn_of_pointsAt ⟨rest, rfl⟩ rfl
  · refine ⟨'[' :: (inside ++ ['#', 'x']), digits, by simp, ?_,
      .inr ⟨⟨[], inside, rfl, hinside⟩, hfaulty⟩⟩
    have hbracket : '['.utf8Size = 1 ∧ '#'.utf8Size = 1 ∧ 'x'.utf8Size = 1 := by decide
    simp only [GrammarError.offset?, Utf8.size_cons, Utf8.size_append, Utf8.size_nil, hbracket,
      Option.some.injEq]
    omega

/-! ## Lexemes -/

theorem quoted?_eq_some {quote : Char} {cs text : List Char} (h : quoted? quote cs = some text) :
    text ++ [quote] <+: cs := by
  induction cs generalizing text with
  | nil => cases h
  | cons c rest ih =>
    rw [quoted?] at h
    split at h
    · next hc =>
      cases h
      exact ⟨rest, by rw [hc]; rfl⟩
    · obtain ⟨more, hmore, rfl⟩ := Option.map_eq_some_iff.1 h
      exact List.cons_prefix_cons.2 ⟨rfl, ih hmore⟩

/-- A sign stands where its character does. -/
theorem standsAt_of_sign {lexeme : Lexeme} {sign c : Char} {rest : List Char}
    (hlexeme : lexeme.beginnings = [[sign]]) (hc : c = sign) : lexeme.StandsAt (c :: rest) :=
  ⟨[sign], by rw [hlexeme]; exact List.mem_singleton_self _, by simp, rest, by rw [hc]; rfl⟩

/-- The outcome of a look at the text `cs`, of which `offset` is the place: the lexeme that is found
stands there, and what cannot be read is at fault there. -/
def FindsAt (offset : Nat) (cs : List Char) : Except GrammarError (Found × Nat) → Prop
  | .error e => e.LocatedIn offset cs
  | .ok (.lexeme found, _) => found.StandsAt cs
  | .ok (.nothing, _) => True

theorem findsAt_find (offset : Nat) (c : Char) (rest : List Char) :
    FindsAt offset (c :: rest) (find offset c rest) := by
  rw [find]
  by_cases hblank : Blank.isBlank c
  · rw [if_pos hblank]
    trivial
  rw [if_neg hblank]
  by_cases hcomment : c = '/' && rest.head? = some '*'
  · rw [if_pos hcomment]
    split
    · trivial
    · simp only [Bool.and_eq_true, decide_eq_true_eq] at hcomment
      obtain ⟨rfl, hstar⟩ := hcomment
      obtain ⟨more, rfl⟩ := List.head?_eq_some_iff.1 hstar
      exact locatedIn_of_pointsAt ⟨more, rfl⟩ rfl
  rw [if_neg hcomment]
  by_cases hdefine : c = ':' && [':', '='].isPrefixOf rest
  · rw [if_pos hdefine]
    simp only [Bool.and_eq_true, decide_eq_true_eq, List.isPrefixOf_iff_prefix] at hdefine
    obtain ⟨rfl, hprefix⟩ := hdefine
    exact ⟨_, List.mem_singleton.2 rfl, by simp, List.cons_prefix_cons.2 ⟨rfl, hprefix⟩⟩
  rw [if_neg hdefine]
  by_cases hquote : c = '\'' || c = '"'
  · rw [if_pos hquote]
    simp only [Bool.or_eq_true, decide_eq_true_eq] at hquote
    split
    · next text htext =>
      refine ⟨[c] ++ text ++ [c], ?_, by simp, ?_⟩
      · rcases hquote with rfl | rfl <;> simp [Lexeme.beginnings]
      · exact List.cons_prefix_cons.2 ⟨rfl, quoted?_eq_some htext⟩
    · refine locatedIn_of_pointsAt ?_ rfl
      rcases hquote with rfl | rfl
      · exact .inl ⟨rest, rfl⟩
      · exact .inr ⟨rest, rfl⟩
  rw [if_neg hquote]
  by_cases hbracket : c = '['
  · rw [if_pos hbracket]
    split
    · exact standsAt_of_sign rfl hbracket
    · next hset =>
      rw [hbracket]
      exact locatedIn_of_charSet hset
  rw [if_neg hbracket]
  by_cases hcode : c = '#' && rest.head? = some 'x'
  · rw [if_pos hcode]
    simp only [Bool.and_eq_true, decide_eq_true_eq] at hcode
    obtain ⟨rfl, hx⟩ := hcode
    obtain ⟨digits, rfl⟩ := List.head?_eq_some_iff.1 hx
    split
    · exact ⟨['#', 'x'], List.mem_singleton.2 rfl, by simp, digits, rfl⟩
    · next hpoint =>
      obtain ⟨rfl, hfaulty⟩ := codePoint_eq_error hpoint
      exact locatedIn_of_pointsAt (.inl ⟨digits, rfl, hfaulty⟩) rfl
  rw [if_neg hcode]
  -- the signs, from the open group to the plus
  iterate 7
    split
    · next hc => exact standsAt_of_sign rfl hc
  split
  · refine ⟨c :: rest.takeWhile continuesName, ?_, by simp, ?_⟩
    · simp [Lexeme.beginnings]
    · exact List.cons_prefix_cons.2 ⟨rfl, List.takeWhile_prefix _⟩
  · exact locatedIn_of_pointsAt ⟨rest, rfl⟩ rfl

/-! ## Texts -/

/-- The outcome of reading the text `cs`, of which `offset` is the place: all lexemes stand at their
places, and what cannot be read is at fault at the place reported. -/
def LexesIn (offset : Nat) (cs : List Char) : Except GrammarError (List Located) → Prop
  | .error e => e.LocatedIn offset cs
  | .ok ls => ∀ l ∈ ls, l.StandsIn offset cs

theorem LexesIn.cons {offset : Nat} {c : Char} {cs : List Char}
    {outcome : Except GrammarError (List Located)} (h : LexesIn (offset + c.utf8Size) cs outcome) :
    LexesIn offset (c :: cs) outcome := by
  cases outcome with
  | error e => exact GrammarError.LocatedIn.cons h
  | ok ls => exact fun l hl => (h l hl).cons

theorem lexesIn_lexemesFrom (skip offset : Nat) (cs : List Char) :
    LexesIn offset cs (lexemesFrom skip offset cs) := by
  induction cs generalizing skip offset with
  | nil =>
    unfold lexemesFrom
    exact fun l hl => nomatch hl
  | cons c rest ih =>
    cases skip with
    | succ skip =>
      rw [lexemesFrom]
      exact (ih skip _).cons
    | zero =>
      have hfind := findsAt_find offset c rest
      rw [lexemesFrom]
      split
      · next hfault =>
        rw [hfault] at hfind
        exact hfind
      · exact (ih _ _).cons
      · next found n hfound =>
        rw [hfound] at hfind
        have hrest := (ih n (offset + c.utf8Size)).cons
        split
        · next hfault =>
          rw [hfault] at hrest
          exact hrest
        · next more hmore =>
          rw [hmore] at hrest
          exact List.forall_mem_cons.2 ⟨⟨[], c :: rest, rfl, rfl, hfind⟩, hrest⟩

/-- **Lexemes stand at their places, and a text that cannot be read as lexemes is at fault at the
place reported.** -/
theorem lexesIn_lexemes (text : List Char) : LexesIn 0 text (lexemes text) :=
  lexesIn_lexemesFrom 0 0 text

end RuleText

end MarkupFilter
