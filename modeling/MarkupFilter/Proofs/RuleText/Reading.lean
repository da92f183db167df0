import MarkupFilter.RuleText.Definition
import MarkupFilter.Proofs.RuleText.SyntaxTree

/-!
# What is read as definitions

`definitions` reads the notation and nothing else: it accepts a row of lexemes if and only if the
row is written from syntax trees of definitions, and returns what these trees stand for.

## Main definitions

* `Reads` — a reader takes a value from the front of a row of lexemes and leaves the rest.

## Main results

* `reads_primary`, …, `reads_alternatives` — what each of the readers does, in terms of the others.
* `exists_primary_of_reads`, …, `exists_expression_of_reads` — what is read is written from a tree.
* `Primary.reads`, …, `Expression.reads` — what is written from a tree is read.
* `definitions_eq_ok_iff` — the readers accept the notation and nothing else.
-/

set_option autoImplicit false

namespace MarkupFilter.RuleText

open Grammar

/-! ## Looking ahead -/

/-- The lexemes of a row, without their places. -/
def written (ls : List Located) : List Lexeme :=
  ls.map Located.lexeme

@[simp] theorem written_nil : written [] = [] := rfl

@[simp] theorem written_cons (lexeme : Lexeme) (offset : Nat) (ls : List Located) :
    written (⟨lexeme, offset⟩ :: ls) = lexeme :: written ls := rfl

theorem written_eq_cons {ls : List Located} {x : Lexeme} {xs : List Lexeme}
    (h : written ls = x :: xs) : ∃ offset rest, ls = ⟨x, offset⟩ :: rest ∧ written rest = xs := by
  obtain ⟨⟨lexeme, offset⟩, rest, rfl, rfl, rfl⟩ := List.map_eq_cons_iff.1 h
  exact ⟨offset, rest, rfl, rfl⟩

theorem startsItem_iff {ls : List Located} : startsItem ls = true ↔ bond (written ls) = 2 := by
  cases ls with
  | nil => simp [startsItem, bond]
  | cons l rest =>
    obtain ⟨lexeme, offset⟩ := l
    cases lexeme with
    | name text =>
      -- the lexeme after a name decides whether it is an item
      rcases rest with _ | ⟨⟨next, _⟩, _⟩
      · simp [startsItem, atDefinition, bond]
      · cases next <;> simp [startsItem, atDefinition, bond]
    | _ => simp [startsItem, bond]

theorem startsQuantifier_iff {ls : List Located} :
    startsQuantifier ls = true ↔ bond (written ls) = 4 := by
  cases ls with
  | nil => simp [startsQuantifier, bond]
  | cons l rest =>
    obtain ⟨lexeme, offset⟩ := l
    cases lexeme with
    | name text =>
      rcases rest with _ | ⟨⟨next, _⟩, _⟩
      · simp [startsQuantifier, quantifier?, bond]
      · cases next <;> simp [startsQuantifier, quantifier?, bond]
    | _ => simp [startsQuantifier, quantifier?, bond]

/-- Only a bar is bound to a sequence and to nothing smaller. -/
theorem exists_bar_of_bond {ls : List Located} (h : bond (written ls) = 1) :
    ∃ offset rest, ls = ⟨.bar, offset⟩ :: rest := by
  unfold bond at h
  split at h <;> cases h
  next hls =>
  obtain ⟨offset, rest, rfl, -⟩ := written_eq_cons hls
  exact ⟨offset, rest, rfl⟩

/-- Only a minus is bound to a quantified primary and to nothing smaller. -/
theorem exists_minus_of_bond {ls : List Located} (h : bond (written ls) = 3) :
    ∃ offset rest, ls = ⟨.minus, offset⟩ :: rest := by
  unfold bond at h
  split at h <;> cases h
  next hls =>
  obtain ⟨offset, rest, rfl, -⟩ := written_eq_cons hls
  exact ⟨offset, rest, rfl⟩

theorem quantifier?_lexeme (mark : Mark) : quantifier? mark.lexeme = some mark.quantifier := by
  cases mark <;> rfl

theorem exists_mark_of_quantifier? {lexeme : Lexeme} {q : Quantifier}
    (h : quantifier? lexeme = some q) :
    ∃ mark : Mark, lexeme = mark.lexeme ∧ q = mark.quantifier := by
  cases lexeme <;> cases h
  · exact ⟨.question, rfl, rfl⟩
  · exact ⟨.star, rfl, rfl⟩
  · exact ⟨.plus, rfl, rfl⟩

/-! ## What the readers do -/

section

variable {α : Type} {stop : Nat} {ls rest : List Located}

/-- The outcome of a reader on `ls` is the value and the rest. -/
def Reads (outcome : Except GrammarError (Parsed α ls)) (value : α) (rest : List Located) : Prop :=
  ∃ parsed, outcome = .ok parsed ∧ parsed.value = value ∧ parsed.rest = rest

theorem Reads.length_lt {outcome : Except GrammarError (Parsed α ls)} {value : α}
    (h : Reads outcome value rest) : rest.length < ls.length := by
  obtain ⟨parsed, -, -, rfl⟩ := h
  exact parsed.shorter

/-- The rule of a lexeme that is a primary by itself. -/
def atom? : Lexeme → Option Rule
  | .literal text => some (.literal .one text.toList)
  | .charSet set => some (.charSet .one set)
  | .charCode code => some (.charCode .one code)
  | .name text => some (.reference .one text)
  | _ => none

theorem reads_primary {value : Rule} : Reads (primary stop ls) value rest ↔
    (∃ lexeme offset, ls = ⟨lexeme, offset⟩ :: rest ∧ atom? lexeme = some value) ∨
    ∃ offset after close rules, ls = ⟨.openGroup, offset⟩ :: after ∧
      Reads (alternatives stop after) rules (⟨.closeGroup, close⟩ :: rest) ∧
      value = joinAlternatives rules := by
  constructor
  · rintro ⟨parsed, h, rfl, rfl⟩
    unfold primary at h
    split at h
    · cases h
    · next offset after =>
      split at h
      · cases h
      next inner hinner =>
      split at h
      · next close after' hrest =>
        cases h
        exact .inr ⟨offset, after, close, inner.value, rfl, ⟨inner, hinner, rfl, hrest⟩, rfl⟩
      · cases h
    · cases h
      exact .inl ⟨_, _, rfl, rfl⟩
    · cases h
      exact .inl ⟨_, _, rfl, rfl⟩
    · cases h
      exact .inl ⟨_, _, rfl, rfl⟩
    · cases h
      exact .inl ⟨_, _, rfl, rfl⟩
    · cases h
  · rintro (⟨lexeme, offset, rfl, hatom⟩ | ⟨offset, after, close, rules, rfl, hinner, rfl⟩)
    · unfold primary
      cases lexeme <;> cases hatom <;> exact ⟨_, rfl, rfl, rfl⟩
    · obtain ⟨inner, hinner, rfl, hrest⟩ := hinner
      unfold primary
      simp only [hinner]
      split
      · next close' after' hrest' =>
        obtain ⟨-, rfl⟩ := List.cons.inj (hrest.symm.trans hrest')
        exact ⟨_, rfl, rfl, rfl⟩
      · next hno => exact absurd hrest (hno _ _)

theorem reads_quantified {value : Rule} : Reads (quantified stop ls) value rest ↔
    (Reads (primary stop ls) value rest ∧ bond (written rest) ≠ 4) ∨
    ∃ item mark offset, Reads (primary stop ls) item (⟨Mark.lexeme mark, offset⟩ :: rest) ∧
      bond (written rest) ≠ 4 ∧ value = item.quantify mark.quantifier := by
  constructor
  · rintro ⟨parsed, h, rfl, rfl⟩
    unfold quantified at h
    split at h
    · cases h
    next item hitem =>
    split at h
    · next lexeme offset after hrest =>
      split at h
      · next hplain =>
        cases h
        refine .inl ⟨⟨parsed, hitem, rfl, rfl⟩, ?_⟩
        rw [Ne, ← startsQuantifier_iff, hrest, startsQuantifier, hplain]
        simp
      · next q hq =>
        split at h
        · cases h
        next hafter =>
        cases h
        obtain ⟨mark, rfl, rfl⟩ := exists_mark_of_quantifier? hq
        refine .inr ⟨item.value, mark, offset, ⟨item, hitem, rfl, hrest⟩, ?_, rfl⟩
        rwa [startsQuantifier_iff] at hafter
    · next hrest =>
      cases h
      refine .inl ⟨⟨parsed, hitem, rfl, rfl⟩, ?_⟩
      rw [hrest]
      simp [bond]
  · rintro (⟨⟨item, hitem, rfl, rfl⟩, hrest⟩ |
      ⟨_, mark, offset, ⟨item, hitem, rfl, hmark⟩, hrest, rfl⟩)
    · unfold quantified
      simp only [hitem]
      split
      · next lexeme offset after hafter =>
        rw [Ne, ← startsQuantifier_iff, hafter, startsQuantifier] at hrest
        split
        · exact ⟨_, rfl, rfl, rfl⟩
        · next q hq => simp [hq] at hrest
      · exact ⟨_, rfl, rfl, rfl⟩
    · unfold quantified
      simp only [hitem]
      split
      · next lexeme offset' after hafter =>
        obtain ⟨hlexeme, rfl⟩ := List.cons.inj (hmark.symm.trans hafter)
        cases hlexeme
        rw [Ne, ← startsQuantifier_iff] at hrest
        simp only [quantifier?_lexeme, if_neg hrest]
        exact ⟨_, rfl, rfl, rfl⟩
      · next hno => simp [hmark] at hno

theorem reads_difference {value : Rule} : Reads (difference stop ls) value rest ↔
    (Reads (quantified stop ls) value rest ∧ bond (written rest) ≠ 3) ∨
    ∃ left right offset after, Reads (quantified stop ls) left (⟨.minus, offset⟩ :: after) ∧
      bond (written after) = 2 ∧ Reads (quantified stop after) right rest ∧
      value = .difference .one left right := by
  constructor
  · rintro ⟨parsed, h, rfl, rfl⟩
    unfold difference at h
    split at h
    · cases h
    next left hleft =>
    split at h
    · next offset after hrest =>
      split at h
      · next hafter =>
        split at h
        · cases h
        next right hright =>
        cases h
        exact .inr ⟨left.value, right.value, offset, after, ⟨left, hleft, rfl, hrest⟩,
          startsItem_iff.1 hafter, ⟨right, hright, rfl, rfl⟩, rfl⟩
      · cases h
    · next hno =>
      cases h
      refine .inl ⟨⟨parsed, hleft, rfl, rfl⟩, fun hbond => ?_⟩
      obtain ⟨offset, after, hrest⟩ := exists_minus_of_bond hbond
      exact hno _ _ hrest
  · rintro (⟨⟨left, hleft, rfl, rfl⟩, hrest⟩ |
      ⟨_, _, offset, after, ⟨left, hleft, rfl, hrest⟩, hafter, ⟨right, hright, rfl, rfl⟩, rfl⟩)
    · unfold difference
      simp only [hleft]
      split
      · next offset after hafter => simp [hafter] at hrest
      · exact ⟨_, rfl, rfl, rfl⟩
    · unfold difference
      simp only [hleft]
      split
      · next offset' after' hafter' =>
        obtain ⟨-, rfl⟩ := List.cons.inj (hrest.symm.trans hafter')
        simp only [startsItem_iff.2 hafter, if_true, hright]
        exact ⟨_, rfl, rfl, rfl⟩
      · next hno => exact absurd hrest (hno _ _)

theorem reads_items {value : List Rule} : Reads (items stop ls) value rest ↔
    (∃ item, Reads (difference stop ls) item rest ∧ bond (written rest) ≠ 2 ∧ value = [item]) ∨
    ∃ first more after, Reads (difference stop ls) first after ∧ bond (written after) = 2 ∧
      Reads (items stop after) more rest ∧ value = first :: more := by
  constructor
  · rintro ⟨parsed, h, rfl, rfl⟩
    unfold items at h
    split at h
    · cases h
    next first hfirst =>
    split at h
    · next hmore =>
      split at h
      · cases h
      next more hitems =>
      cases h
      exact .inr ⟨first.value, more.value, first.rest, ⟨first, hfirst, rfl, rfl⟩,
        startsItem_iff.1 hmore, ⟨more, hitems, rfl, rfl⟩, rfl⟩
    · next hend =>
      cases h
      rw [startsItem_iff] at hend
      exact .inl ⟨first.value, ⟨first, hfirst, rfl, rfl⟩, hend, rfl⟩
  · rintro (⟨_, ⟨item, hitem, rfl, rfl⟩, hrest, rfl⟩ |
      ⟨_, _, _, ⟨first, hfirst, rfl, rfl⟩, hafter, ⟨more, hmore, rfl, rfl⟩, rfl⟩)
    · rw [Ne, ← startsItem_iff] at hrest
      unfold items
      simp only [hitem, if_neg hrest]
      exact ⟨_, rfl, rfl, rfl⟩
    · unfold items
      simp only [hfirst, startsItem_iff.2 hafter, if_true, hmore]
      exact ⟨_, rfl, rfl, rfl⟩

theorem reads_alternatives {value : List Rule} : Reads (alternatives stop ls) value rest ↔
    bond (written ls) = 2 ∧
      ((∃ rules, Reads (items stop ls) rules rest ∧ bond (written rest) ≠ 1 ∧
        value = [joinItems rules]) ∨
      ∃ rules more offset after, Reads (items stop ls) rules (⟨.bar, offset⟩ :: after) ∧
        Reads (alternatives stop after) more rest ∧ value = joinItems rules :: more) := by
  constructor
  · rintro ⟨parsed, h, rfl, rfl⟩
    unfold alternatives at h
    split at h
    · next hstart =>
      refine ⟨startsItem_iff.1 hstart, ?_⟩
      split at h
      · cases h
      next first hfirst =>
      split at h
      · next offset after hrest =>
        split at h
        · cases h
        next more hmore =>
        cases h
        exact .inr ⟨first.value, more.value, offset, after, ⟨first, hfirst, rfl, hrest⟩,
          ⟨more, hmore, rfl, rfl⟩, rfl⟩
      · next hno =>
        cases h
        refine .inl ⟨first.value, ⟨first, hfirst, rfl, rfl⟩, fun hbond => ?_, rfl⟩
        obtain ⟨offset, after, hrest⟩ := exists_bar_of_bond hbond
        exact hno _ _ hrest
    · cases h
  · rintro ⟨hstart, ⟨_, ⟨first, hfirst, rfl, rfl⟩, hrest, rfl⟩ |
      ⟨_, _, offset, after, ⟨first, hfirst, rfl, hrest⟩, ⟨more, hmore, rfl, rfl⟩, rfl⟩⟩
    · unfold alternatives
      simp only [startsItem_iff.2 hstart, if_true, hfirst]
      split
      · next offset after hafter => simp [hafter] at hrest
      · exact ⟨_, rfl, rfl, rfl⟩
    · unfold alternatives
      simp only [startsItem_iff.2 hstart, if_true, hfirst]
      split
      · next offset' after' hafter' =>
        obtain ⟨-, rfl⟩ := List.cons.inj (hrest.symm.trans hafter')
        simp only [hmore]
        exact ⟨_, rfl, rfl, rfl⟩
      · next hno => exact absurd hrest (hno _ _)

end

/-! ## What is written from a tree is read -/

theorem Sequence.rules_ne_nil (s : Sequence) : s.rules ≠ [] := by
  cases s <;> simp [Sequence.rules]

theorem Expression.rules_ne_nil (e : Expression) : e.rules ≠ [] := by
  cases e <;> simp [Expression.rules]

/-- Items are joined to the rule of their sequence. -/
theorem joinItems_rules (s : Sequence) : joinItems s.rules = s.rule := by
  cases s with
  | single item => rfl
  | cons first rest =>
    obtain ⟨rule, rules, hrules⟩ := List.exists_cons_of_ne_nil rest.rules_ne_nil
    rw [Sequence.rules, Sequence.rule, hrules]
    rfl

/-- Alternatives are joined to the rule of their expression. -/
theorem joinAlternatives_rules (e : Expression) : joinAlternatives e.rules = e.rule := by
  cases e with
  | single items => rfl
  | cons first rest =>
    obtain ⟨rule, rules, hrules⟩ := List.exists_cons_of_ne_nil rest.rules_ne_nil
    rw [Expression.rules, Expression.rule, hrules]
    rfl

section

variable {stop : Nat}

mutual

/-- **What is written from a tree is read**, if what stands after it is not bound to it. The
induction is on the tree; each reader reads what its kind of node is written as. -/
theorem Primary.reads : ∀ (p : Primary) {ls : List Located} {xs : List Lexeme},
    written ls = p.lexemes ++ xs → ∃ rest, written rest = xs ∧ Reads (primary stop ls) p.rule rest
  | .literal text, ls, xs, h => by
    obtain ⟨offset, rest, rfl, hrest⟩ := written_eq_cons h
    exact ⟨rest, hrest, reads_primary.2 (.inl ⟨_, offset, rfl, rfl⟩)⟩
  | .charSet set, ls, xs, h => by
    obtain ⟨offset, rest, rfl, hrest⟩ := written_eq_cons h
    exact ⟨rest, hrest, reads_primary.2 (.inl ⟨_, offset, rfl, rfl⟩)⟩
  | .charCode code, ls, xs, h => by
    obtain ⟨offset, rest, rfl, hrest⟩ := written_eq_cons h
    exact ⟨rest, hrest, reads_primary.2 (.inl ⟨_, offset, rfl, rfl⟩)⟩
  | .name text, ls, xs, h => by
    obtain ⟨offset, rest, rfl, hrest⟩ := written_eq_cons h
    exact ⟨rest, hrest, reads_primary.2 (.inl ⟨_, offset, rfl, rfl⟩)⟩
  | .group inner, ls, xs, h => by
    rw [Primary.lexemes, List.cons_append, List.append_assoc] at h
    obtain ⟨offset, after, rfl, hafter⟩ := written_eq_cons h
    obtain ⟨closed, hclosed, hinner⟩ := Expression.reads inner rfl hafter
    obtain ⟨close, rest, rfl, hrest⟩ := written_eq_cons hclosed
    refine ⟨rest, hrest, reads_primary.2 (.inr ⟨offset, after, close, _, rfl, hinner, ?_⟩)⟩
    rw [joinAlternatives_rules, Primary.rule]

theorem Quantified.reads : ∀ (q : Quantified) {ls : List Located} {xs : List Lexeme},
    bond xs ≤ 3 → written ls = q.lexemes ++ xs →
      ∃ rest, written rest = xs ∧ Reads (quantified stop ls) q.rule rest
  | .plain item, ls, xs, hxs, h => by
    obtain ⟨rest, rfl, hitem⟩ := Primary.reads item h
    exact ⟨rest, rfl, reads_quantified.2 (.inl ⟨hitem, by omega⟩)⟩
  | .marked item mark, ls, xs, hxs, h => by
    rw [Quantified.lexemes, List.append_assoc] at h
    obtain ⟨marked, hmarked, hitem⟩ := Primary.reads item h
    obtain ⟨offset, rest, rfl, rfl⟩ := written_eq_cons hmarked
    refine ⟨rest, rfl, reads_quantified.2 (.inr ⟨_, mark, offset, hitem, by omega, ?_⟩)⟩
    exact Quantified.rule_marked item mark

theorem Difference.reads : ∀ (d : Difference) {ls : List Located} {xs : List Lexeme},
    bond xs ≤ 2 → written ls = d.lexemes ++ xs →
      ∃ rest, written rest = xs ∧ Reads (difference stop ls) d.rule rest
  | .single item, ls, xs, hxs, h => by
    obtain ⟨rest, rfl, hitem⟩ := Quantified.reads item (by omega) h
    exact ⟨rest, rfl, reads_difference.2 (.inl ⟨hitem, by omega⟩)⟩
  | .minus left right, ls, xs, hxs, h => by
    rw [Difference.lexemes, List.append_assoc] at h
    obtain ⟨signed, hsigned, hleft⟩ := Quantified.reads left (by simp) h
    obtain ⟨offset, after, rfl, hafter⟩ := written_eq_cons hsigned
    have hbond : bond (written after) = 2 := by
      rw [hafter]
      exact right.bond_append (by omega)
    obtain ⟨rest, hrest, hright⟩ := Quantified.reads right (by omega) hafter
    exact ⟨rest, hrest,
      reads_difference.2 (.inr ⟨_, _, offset, after, hleft, hbond, hright, rfl⟩)⟩

theorem Sequence.reads : ∀ (s : Sequence) {ls : List Located} {xs : List Lexeme},
    bond xs ≤ 1 → written ls = s.lexemes ++ xs →
      ∃ rest, written rest = xs ∧ Reads (items stop ls) s.rules rest
  | .single item, ls, xs, hxs, h => by
    obtain ⟨rest, rfl, hitem⟩ := Difference.reads item (by omega) h
    exact ⟨rest, rfl, reads_items.2 (.inl ⟨_, hitem, by omega, rfl⟩)⟩
  | .cons first rest, ls, xs, hxs, h => by
    have hbond : bond (rest.lexemes ++ xs) = 2 := rest.bond_append (by omega)
    rw [Sequence.lexemes, List.append_assoc] at h
    obtain ⟨after, hafter, hfirst⟩ := Difference.reads first (by omega) h
    rw [← hafter] at hbond
    obtain ⟨left, hleft, hmore⟩ := Sequence.reads rest hxs hafter
    exact ⟨left, hleft, reads_items.2 (.inr ⟨_, _, after, hfirst, hbond, hmore, rfl⟩)⟩

theorem Expression.reads : ∀ (e : Expression) {ls : List Located} {xs : List Lexeme},
    bond xs = 0 → written ls = e.lexemes ++ xs →
      ∃ rest, written rest = xs ∧ Reads (alternatives stop ls) e.rules rest
  | .single items, ls, xs, hxs, h => by
    have hstart : bond (written ls) = 2 := by
      rw [h]
      exact items.bond_append (by omega)
    obtain ⟨rest, rfl, hitems⟩ := Sequence.reads items (by omega) h
    refine ⟨rest, rfl, reads_alternatives.2 ⟨hstart, .inl ⟨_, hitems, by omega, ?_⟩⟩⟩
    rw [joinItems_rules, Expression.rules]
  | .cons first rest, ls, xs, hxs, h => by
    rw [Expression.lexemes, List.append_assoc] at h
    have hstart : bond (written ls) = 2 := by
      rw [h]
      exact first.bond_append (by simp)
    obtain ⟨barred, hbarred, hfirst⟩ := Sequence.reads first (by simp) h
    obtain ⟨offset, after, rfl, hafter⟩ := written_eq_cons hbarred
    obtain ⟨left, hleft, hmore⟩ := Expression.reads rest hxs hafter
    refine ⟨left, hleft, reads_alternatives.2 ⟨hstart,
      .inr ⟨_, _, offset, after, hfirst, hmore, ?_⟩⟩⟩
    rw [joinItems_rules, Expression.rules]

end

/-! ## What is read is written from a tree -/

mutual

/-- **What is read is written from a tree**, and its rule is the one returned. The induction follows
the readers, each of which leaves fewer lexemes than it is given. -/
theorem exists_primary_of_reads {ls rest : List Located} {value : Rule}
    (h : Reads (primary stop ls) value rest) :
    ∃ p : Primary, written ls = p.lexemes ++ written rest ∧ p.rule = value := by
  rcases reads_primary.1 h with ⟨lexeme, offset, rfl, hatom⟩ |
    ⟨offset, after, close, rules, rfl, hinner, rfl⟩
  · cases lexeme <;> cases hatom
    · exact ⟨.name _, rfl, rfl⟩
    · exact ⟨.literal _, rfl, rfl⟩
    · exact ⟨.charSet _, rfl, rfl⟩
    · exact ⟨.charCode _, rfl, rfl⟩
  · obtain ⟨inner, hwritten, rfl⟩ := exists_expression_of_reads hinner
    refine ⟨.group inner, ?_, (joinAlternatives_rules inner).symm⟩
    simp [Primary.lexemes, hwritten]
termination_by (ls.length, 0)

theorem exists_quantified_of_reads {ls rest : List Located} {value : Rule}
    (h : Reads (quantified stop ls) value rest) :
    ∃ q : Quantified, written ls = q.lexemes ++ written rest ∧ q.rule = value := by
  rcases reads_quantified.1 h with ⟨hitem, -⟩ | ⟨item, mark, offset, hitem, -, rfl⟩
  · obtain ⟨p, hwritten, rfl⟩ := exists_primary_of_reads hitem
    exact ⟨.plain p, hwritten, rfl⟩
  · obtain ⟨p, hwritten, rfl⟩ := exists_primary_of_reads hitem
    refine ⟨.marked p mark, ?_, Quantified.rule_marked p mark⟩
    simp [Quantified.lexemes, hwritten]
termination_by (ls.length, 1)

theorem exists_difference_of_reads {ls rest : List Located} {value : Rule}
    (h : Reads (difference stop ls) value rest) :
    ∃ d : Difference, written ls = d.lexemes ++ written rest ∧ d.rule = value := by
  rcases reads_difference.1 h with ⟨hitem, -⟩ |
    ⟨left, right, offset, after, hleft, -, hright, rfl⟩
  · obtain ⟨q, hwritten, rfl⟩ := exists_quantified_of_reads hitem
    exact ⟨.single q, hwritten, rfl⟩
  · have hlength : after.length < ls.length := Nat.lt_of_succ_lt hleft.length_lt
    obtain ⟨l, hwritten, rfl⟩ := exists_quantified_of_reads hleft
    obtain ⟨r, hwritten', rfl⟩ := exists_quantified_of_reads hright
    refine ⟨.minus l r, ?_, rfl⟩
    simp [Difference.lexemes, hwritten, hwritten']
termination_by (ls.length, 2)

theorem exists_sequence_of_reads {ls rest : List Located} {value : List Rule}
    (h : Reads (items stop ls) value rest) :
    ∃ s : Sequence, written ls = s.lexemes ++ written rest ∧ s.rules = value := by
  rcases reads_items.1 h with ⟨item, hitem, -, rfl⟩ | ⟨first, more, after, hfirst, -, hmore, rfl⟩
  · obtain ⟨d, hwritten, rfl⟩ := exists_difference_of_reads hitem
    exact ⟨.single d, hwritten, rfl⟩
  · have hlength := hfirst.length_lt
    obtain ⟨d, hwritten, rfl⟩ := exists_difference_of_reads hfirst
    obtain ⟨s, hwritten', rfl⟩ := exists_sequence_of_reads hmore
    refine ⟨.cons d s, ?_, rfl⟩
    simp [Sequence.lexemes, hwritten, hwritten']
termination_by (ls.length, 3)

theorem exists_expression_of_reads {ls rest : List Located} {value : List Rule}
    (h : Reads (alternatives stop ls) value rest) :
    ∃ e : Expression, written ls = e.lexemes ++ written rest ∧ e.rules = value := by
  rcases (reads_alternatives.1 h).2 with ⟨rules, hitems, -, rfl⟩ |
    ⟨rules, more, offset, after, hitems, hmore, rfl⟩
  · obtain ⟨s, hwritten, rfl⟩ := exists_sequence_of_reads hitems
    exact ⟨.single s, hwritten, by rw [joinItems_rules, Expression.rules]⟩
  · have hlength : after.length < ls.length := Nat.lt_of_succ_lt hitems.length_lt
    obtain ⟨s, hwritten, rfl⟩ := exists_sequence_of_reads hitems
    obtain ⟨e, hwritten', rfl⟩ := exists_expression_of_reads hmore
    refine ⟨.cons s e, ?_, by rw [joinItems_rules, Expression.rules]⟩
    simp [Expression.lexemes, hwritten, hwritten']
termination_by (ls.length, 4)

end

end

/-! ## Definitions -/

section

variable {stop : Nat}

/-- The definitions that are read are those that a row is written from. The induction is on the
number of lexemes in the one direction, and on the definitions in the other. -/
theorem definitionsFrom_eq_ok_iff {ls : List Located} {entries : List (String × Rule)} :
    definitionsFrom stop ls = .ok entries ↔
      ∃ ds : List Definition, ds.flatMap Definition.lexemes = written ls ∧
        ds.map Definition.entry = entries := by
  constructor
  · intro h
    induction hn : ls.length using Nat.strongRecOn generalizing ls entries with
    | _ n ih =>
      unfold definitionsFrom at h
      split at h
      · cases h
        exact ⟨[], rfl, rfl⟩
      · next name _ _ body =>
        split at h
        · cases h
        next rule hrule =>
        split at h
        · cases h
        next more hmore =>
        cases h
        have hlt : rule.rest.length < n := by
          have := rule.shorter
          simp only [List.length_cons] at hn
          omega
        obtain ⟨e, hwritten, hrules⟩ := exists_expression_of_reads ⟨rule, hrule, rfl, rfl⟩
        obtain ⟨ds, hds, rfl⟩ := ih _ hlt hmore rfl
        refine ⟨⟨name, e⟩ :: ds, ?_, ?_⟩
        · simp [Definition.lexemes, hwritten, hds]
        · simp [Definition.entry, ← hrules, joinAlternatives_rules]
      · cases h
      · cases h
  · rintro ⟨ds, hds, rfl⟩
    induction ds generalizing ls with
    | nil =>
      obtain rfl : ls = [] := List.map_eq_nil_iff.1 hds.symm
      unfold definitionsFrom
      rfl
    | cons d ds ih =>
      obtain ⟨offset, signed, rfl, hsigned⟩ := written_eq_cons hds.symm
      obtain ⟨offset', body, rfl, hbody⟩ := written_eq_cons hsigned
      have hread : ∃ rest, written rest = ds.flatMap Definition.lexemes ∧
          Reads (alternatives stop body) d.body.rules rest :=
        d.body.reads (bond_definitions ds) hbody
      obtain ⟨rest, hrest, rule, hrule, hvalue, rfl⟩ := hread
      unfold definitionsFrom
      simp only [hrule, ih hrest.symm, hvalue, joinAlternatives_rules]
      rfl

end

/-- **The readers accept the notation and nothing else.** A row of lexemes is accepted if and only
if it is written from one or more definitions. There is only one way to write it so, and what is
returned is what these definitions stand for, in their order. A name right before a definition sign
always starts one of them. -/
theorem definitions_iff_derivation (stop : Nat) (ls : List Located) :
    ((∃ entries, definitions stop ls = .ok entries) ↔ ∃ ds, Derivation (written ls) ds) ∧
    (∀ ds, Derivation (written ls) ds → definitions stop ls = .ok (ds.map Definition.entry)) ∧
    (∀ ds ds', Derivation (written ls) ds → Derivation (written ls) ds' → ds = ds') ∧
    ∀ ds, Derivation (written ls) ds → ∀ before name after,
      written ls = before ++ .name name :: .define :: after →
        ∃ ds₁ d ds₂, ds = ds₁ ++ d :: ds₂ ∧ ds₁.flatMap Definition.lexemes = before ∧
          d.name = name := by
  have haccepted : ∀ ds, Derivation (written ls) ds →
      definitions stop ls = .ok (ds.map Definition.entry) := by
    rintro ds ⟨hne, hds⟩
    have hfrom : definitionsFrom stop ls = .ok (ds.map Definition.entry) :=
      definitionsFrom_eq_ok_iff.2 ⟨ds, hds, rfl⟩
    unfold definitions
    split
    · cases ds with
      | nil => exact absurd rfl hne
      | cons => cases hds
    · exact hfrom
  refine ⟨⟨?_, ?_⟩, haccepted, fun ds ds' h h' => h.unique h', ?_⟩
  · rintro ⟨entries, h⟩
    unfold definitions at h
    split at h
    · cases h
    · next hne =>
      obtain ⟨ds, hds, -⟩ := definitionsFrom_eq_ok_iff.1 h
      refine ⟨ds, ?_, hds⟩
      rintro rfl
      exact hne (List.map_eq_nil_iff.1 hds.symm)
  · rintro ⟨ds, hds⟩
    exact ⟨_, haccepted ds hds⟩
  · intro ds hds before name after hwritten
    exact exists_header (hds.2.trans hwritten)

/-- In `a ::= ('x'*)? - b b ::= 'y'`, a mark repeats what is repeated already, and the second `b`
starts a definition. -/
theorem definitions_iff_derivation_marked :
    let ls : List Located := [⟨.name "a", 0⟩, ⟨.define, 2⟩, ⟨.openGroup, 6⟩, ⟨.literal "x", 7⟩,
      ⟨.star, 10⟩, ⟨.closeGroup, 11⟩, ⟨.question, 12⟩, ⟨.minus, 14⟩, ⟨.name "b", 16⟩,
      ⟨.name "b", 18⟩, ⟨.define, 20⟩, ⟨.literal "y", 24⟩]
    let ds : List Definition :=
      [⟨"a", .single (.single (.minus
          (.marked (.group (.single (.single (.single (.marked (.literal "x") .star))))) .question)
          (.plain (.name "b"))))⟩,
        ⟨"b", .single (.single (.single (.plain (.literal "y"))))⟩]
    Derivation (written ls) ds ∧
      definitions 27 ls = .ok
        [("a", .difference .one (.sequence .optional [.literal .zeroOrMore ['x']])
            (.reference .one "b")),
          ("b", .literal .one ['y'])] := by
  intro ls ds
  have hds : Derivation (written ls) ds := ⟨by simp [ds], rfl⟩
  exact ⟨hds, (definitions_iff_derivation 27 ls).2.1 ds hds⟩

end MarkupFilter.RuleText
