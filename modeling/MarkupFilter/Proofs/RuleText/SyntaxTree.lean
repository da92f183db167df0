import MarkupFilter.RuleText.Lexeme

/-!
# Syntax trees of the rule notation

The grammar of the notation, as trees:

    definition  ::= name '::=' expression
    expression  ::= sequence ('|' sequence)*
    sequence    ::= difference+
    difference  ::= quantified ('-' quantified)?
    quantified  ::= primary ('?' | '*' | '+')?
    primary     ::= '(' expression ')' | literal | set | code point | name

A row of lexemes is in the notation if it is the row of lexemes of a tree. There is one such tree at
most, since what stands after a node tells where the node ends.

## Main definitions

* `Primary`, `Quantified`, `Difference`, `Sequence`, `Expression`, `Definition` — the trees.
* `Expression.lexemes` and its like — the row of lexemes that a tree is written as.
* `Expression.rule` and its like — the rule that a tree stands for.
* `bond` — how tightly the next lexeme is bound to what stands before it.
* `Derivation` — the definitions that a row of lexemes is written from.

## Main results

* `Expression.eq_of_append_eq` and its like — a tree is known from its lexemes.
* `Derivation.unique` — a row of lexemes is written from one row of definitions at most.
* `Derivation.exists_header` — a name before a definition sign starts a definition.
-/

set_option autoImplicit false

namespace MarkupFilter.RuleText

open Grammar

/-! ## Trees -/

/-- A sign for how often something is to be matched. -/
inductive Mark where
  | question
  | star
  | plus
  deriving DecidableEq, Repr

mutual

inductive Primary where
  | group (inner : Expression)
  | literal (text : String)
  | charSet (set : CharSet)
  | charCode (code : Char)
  | name (text : String)

inductive Quantified where
  | plain (item : Primary)
  | marked (item : Primary) (mark : Mark)

inductive Difference where
  | single (item : Quantified)
  | minus (left right : Quantified)

inductive Sequence where
  | single (item : Difference)
  | cons (first : Difference) (rest : Sequence)

inductive Expression where
  | single (items : Sequence)
  | cons (first : Sequence) (rest : Expression)

end

structure Definition where
  name : String
  body : Expression

/-! ## How trees are written -/

def Mark.lexeme : Mark → Lexeme
  | .question => .question
  | .star => .star
  | .plus => .plus

mutual

def Primary.lexemes : Primary → List Lexeme
  | .group inner => .openGroup :: (inner.lexemes ++ [.closeGroup])
  | .literal text => [.literal text]
  | .charSet set => [.charSet set]
  | .charCode code => [.charCode code]
  | .name text => [.name text]

def Quantified.lexemes : Quantified → List Lexeme
  | .plain item => item.lexemes
  | .marked item mark => item.lexemes ++ [mark.lexeme]

def Difference.lexemes : Difference → List Lexeme
  | .single item => item.lexemes
  | .minus left right => left.lexemes ++ .minus :: right.lexemes

def Sequence.lexemes : Sequence → List Lexeme
  | .single item => item.lexemes
  | .cons first rest => first.lexemes ++ rest.lexemes

def Expression.lexemes : Expression → List Lexeme
  | .single items => items.lexemes
  | .cons first rest => first.lexemes ++ .bar :: rest.lexemes

end

def Definition.lexemes (d : Definition) : List Lexeme :=
  .name d.name :: .define :: d.body.lexemes

/-- The row of lexemes is written from the definitions, of which there is at least one. -/
def Derivation (ls : List Lexeme) (ds : List Definition) : Prop :=
  ds ≠ [] ∧ ds.flatMap Definition.lexemes = ls

/-! ## What trees stand for -/

def Mark.quantifier : Mark → Quantifier
  | .question => .optional
  | .star => .zeroOrMore
  | .plus => .oneOrMore

mutual

/-- Whether what stands in the parentheses of a group, and of groups inside it, is one primary with
a mark and nothing else. -/
def Primary.isQuantified : Primary → Bool
  | .group (.single (.single (.single item))) => item.isQuantified
  | _ => false

def Quantified.isQuantified : Quantified → Bool
  | .plain item => item.isQuantified
  | .marked .. => true

end

mutual

/-- The rule of a primary: the parentheses of a group leave no trace. -/
def Primary.rule : Primary → Rule
  | .group inner => inner.rule
  | .literal text => .literal .one text.toList
  | .charSet set => .charSet .one set
  | .charCode code => .charCode .one code
  | .name text => .reference .one text

/-- The rule of a primary with its mark, if it has one. One that is quantified already is the one
item of a sequence, which bears the mark. -/
def Quantified.rule : Quantified → Rule
  | .plain item => item.rule
  | .marked item mark =>
    if item.isQuantified then .sequence mark.quantifier [item.rule]
    else item.rule.withQuantifier mark.quantifier

def Difference.rule : Difference → Rule
  | .single item => item.rule
  | .minus left right => .difference .one left.rule right.rule

/-- The rule of a sequence: a single item stands for itself. -/
def Sequence.rule : Sequence → Rule
  | .single item => item.rule
  | .cons first rest => .sequence .one (first.rule :: rest.rules)

def Sequence.rules : Sequence → List Rule
  | .single item => [item.rule]
  | .cons first rest => first.rule :: rest.rules

/-- The rule of an expression: a single sequence stands for itself. -/
def Expression.rule : Expression → Rule
  | .single items => items.rule
  | .cons first rest => .choice .one (first.rule :: rest.rules)

def Expression.rules : Expression → List Rule
  | .single items => [items.rule]
  | .cons first rest => first.rule :: rest.rules

end

/-- The named rule of a definition. -/
def Definition.entry (d : Definition) : String × Rule :=
  (d.name, d.body.rule)

/-! ### Marks and joined rules -/

theorem Mark.quantifier_ne_one (mark : Mark) : mark.quantifier ≠ .one := by
  cases mark <;> decide

mutual

/-- What can be seen of the tree can be seen of its rule. -/
theorem Primary.isQuantified_iff : ∀ p : Primary,
    p.isQuantified = true ↔ p.rule.quantifier ≠ .one
  | .group (.single (.single (.single item))) => by
    simpa [Primary.isQuantified, Primary.rule, Expression.rule, Sequence.rule, Difference.rule]
      using Quantified.isQuantified_iff item
  | .group (.single (.single (.minus ..))) => by
    simp [Primary.isQuantified, Primary.rule, Expression.rule, Sequence.rule, Difference.rule,
      Rule.quantifier]
  | .group (.single (.cons ..)) => by
    simp [Primary.isQuantified, Primary.rule, Expression.rule, Sequence.rule, Rule.quantifier]
  | .group (.cons ..) => by
    simp [Primary.isQuantified, Primary.rule, Expression.rule, Rule.quantifier]
  | .literal _ => by simp [Primary.isQuantified, Primary.rule, Rule.quantifier]
  | .charSet _ => by simp [Primary.isQuantified, Primary.rule, Rule.quantifier]
  | .charCode _ => by simp [Primary.isQuantified, Primary.rule, Rule.quantifier]
  | .name _ => by simp [Primary.isQuantified, Primary.rule, Rule.quantifier]

theorem Quantified.isQuantified_iff : ∀ q : Quantified,
    q.isQuantified = true ↔ q.rule.quantifier ≠ .one
  | .plain item => by
    simpa [Quantified.isQuantified, Quantified.rule] using Primary.isQuantified_iff item
  | .marked item mark => by
    have hmark := mark.quantifier_ne_one
    rw [Quantified.rule]
    split
    · simp [Quantified.isQuantified, Rule.quantifier, hmark]
    · cases item.rule <;> simpa [Quantified.isQuantified, Rule.quantifier, Rule.withQuantifier]

end

/-- A mark repeats the rule of its primary. -/
theorem Quantified.rule_marked (item : Primary) (mark : Mark) :
    (Quantified.marked item mark).rule = item.rule.quantify mark.quantifier := by
  have hquantified := item.isQuantified_iff
  rw [Quantified.rule, Rule.quantify]
  by_cases hone : item.rule.quantifier = .one
  · rw [if_neg (by simp [hquantified, hone]), if_pos hone]
  · rw [if_pos (hquantified.2 hone), if_neg hone]

/-! ## What follows a node -/

/-- How tightly the next lexeme is bound to what stands before it: a mark to a primary, a minus to
a quantified primary, the start of an item to a difference, and a bar to a sequence. What can stand
after a whole expression is not bound to it at all, and a definition sign only ever follows the name
that it makes the name of a definition. -/
def bond : List Lexeme → Nat
  | [] => 0
  | .closeGroup :: _ => 0
  | .name _ :: .define :: _ => 0
  | .bar :: _ => 1
  | .name _ :: _ => 2
  | .literal _ :: _ => 2
  | .charSet _ :: _ => 2
  | .charCode _ :: _ => 2
  | .openGroup :: _ => 2
  | .minus :: _ => 3
  | .question :: _ => 4
  | .star :: _ => 4
  | .plus :: _ => 4
  | .define :: _ => 5

@[simp] theorem bond_bar (xs : List Lexeme) : bond (.bar :: xs) = 1 := rfl

@[simp] theorem bond_minus (xs : List Lexeme) : bond (.minus :: xs) = 3 := rfl

@[simp] theorem bond_mark (mark : Mark) (xs : List Lexeme) : bond (mark.lexeme :: xs) = 4 := by
  cases mark <;> rfl

/-- A name is an item unless a definition sign follows it. -/
theorem bond_name {text : String} {xs : List Lexeme} (h : bond xs ≤ 4) :
    bond (.name text :: xs) = 2 := by
  unfold bond
  split <;> simp_all [bond]

mutual

/-- What a node starts with is the start of an item. -/
theorem Primary.bond_append : ∀ (p : Primary) {xs : List Lexeme}, bond xs ≤ 4 →
    bond (p.lexemes ++ xs) = 2
  | .group _, _, _ => rfl
  | .literal _, _, _ => rfl
  | .charSet _, _, _ => rfl
  | .charCode _, _, _ => rfl
  | .name _, _, h => bond_name h

theorem Quantified.bond_append : ∀ (q : Quantified) {xs : List Lexeme}, bond xs ≤ 4 →
    bond (q.lexemes ++ xs) = 2
  | .plain item, _, h => Primary.bond_append item h
  | .marked item mark, xs, _ => by
    rw [Quantified.lexemes, List.append_assoc]
    exact Primary.bond_append item (Nat.le_of_eq (bond_mark mark xs))

end

theorem Difference.bond_append (d : Difference) {xs : List Lexeme} (h : bond xs ≤ 4) :
    bond (d.lexemes ++ xs) = 2 := by
  cases d with
  | single item => exact item.bond_append h
  | minus left right =>
    rw [Difference.lexemes, List.append_assoc]
    exact left.bond_append (by simp)

theorem Sequence.bond_append : ∀ (s : Sequence) {xs : List Lexeme}, bond xs ≤ 4 →
    bond (s.lexemes ++ xs) = 2
  | .single item, _, h => item.bond_append h
  | .cons first rest, xs, h => by
    have hrest := Sequence.bond_append rest h
    rw [Sequence.lexemes, List.append_assoc]
    exact first.bond_append (by omega)

theorem Expression.bond_append (e : Expression) {xs : List Lexeme} (h : bond xs ≤ 4) :
    bond (e.lexemes ++ xs) = 2 := by
  cases e with
  | single items => exact items.bond_append h
  | cons first rest =>
    rw [Expression.lexemes, List.append_assoc]
    exact first.bond_append (by simp)

/-- What can follow a row of definitions' start: the next one, or nothing. -/
theorem bond_definitions (ds : List Definition) : bond (ds.flatMap Definition.lexemes) = 0 := by
  cases ds <;> rfl

/-! ## One tree for a row of lexemes -/

theorem Mark.eq_of_lexeme_eq {m m' : Mark} (h : m.lexeme = m'.lexeme) : m = m' := by
  cases m <;> cases m' <;> first | rfl | cases h

mutual

/-- **A tree is known from its lexemes**, with whatever can stand after it.

*Proof sketch.* The induction is on the first tree. Where the second one is built in another way, it
goes on where the first one ends, with a lexeme that is bound too tightly to stand there. -/
theorem Primary.eq_of_append_eq : ∀ (p p' : Primary) {xs ys : List Lexeme},
    p.lexemes ++ xs = p'.lexemes ++ ys → p = p' ∧ xs = ys
  | .group inner, .group inner', xs, ys, h => by
    simp only [Primary.lexemes, List.cons_append, List.append_assoc, List.cons.injEq, true_and,
      List.nil_append] at h
    obtain ⟨rfl, hrest⟩ := Expression.eq_of_append_eq inner inner' rfl rfl h
    exact ⟨rfl, (List.cons.inj hrest).2⟩
  | .literal _, .literal _, xs, ys, h => by simp_all [Primary.lexemes]
  | .charSet _, .charSet _, xs, ys, h => by simp_all [Primary.lexemes]
  | .charCode _, .charCode _, xs, ys, h => by simp_all [Primary.lexemes]
  | .name _, .name _, xs, ys, h => by simp_all [Primary.lexemes]

theorem Quantified.eq_of_append_eq : ∀ (q q' : Quantified) {xs ys : List Lexeme},
    bond xs ≤ 3 → bond ys ≤ 3 → q.lexemes ++ xs = q'.lexemes ++ ys → q = q' ∧ xs = ys
  | .plain item, .plain item', _, _, _, _, h => by
    obtain ⟨rfl, hrest⟩ := Primary.eq_of_append_eq item item' h
    exact ⟨rfl, hrest⟩
  | .plain item, .marked item' mark, xs, ys, hxs, _, h => by
    rw [Quantified.lexemes, Quantified.lexemes, List.append_assoc] at h
    obtain ⟨-, rfl⟩ := Primary.eq_of_append_eq item item' h
    exact absurd hxs (by simp)
  | .marked item mark, .plain item', xs, ys, _, hys, h => by
    rw [Quantified.lexemes, Quantified.lexemes, List.append_assoc] at h
    obtain ⟨-, rfl⟩ := Primary.eq_of_append_eq item item' h
    exact absurd hys (by simp)
  | .marked item mark, .marked item' mark', _, _, _, _, h => by
    rw [Quantified.lexemes, Quantified.lexemes, List.append_assoc, List.append_assoc] at h
    obtain ⟨rfl, hrest⟩ := Primary.eq_of_append_eq item item' h
    obtain ⟨hmark, htail⟩ := List.cons.inj hrest
    obtain rfl := Mark.eq_of_lexeme_eq hmark
    exact ⟨rfl, htail⟩

theorem Difference.eq_of_append_eq : ∀ (d d' : Difference) {xs ys : List Lexeme},
    bond xs ≤ 2 → bond ys ≤ 2 → d.lexemes ++ xs = d'.lexemes ++ ys → d = d' ∧ xs = ys
  | .single item, .single item', _, _, hxs, hys, h => by
    obtain ⟨rfl, hrest⟩ := Quantified.eq_of_append_eq item item' (by omega) (by omega) h
    exact ⟨rfl, hrest⟩
  | .single item, .minus left right, xs, ys, hxs, _, h => by
    rw [Difference.lexemes, Difference.lexemes, List.append_assoc] at h
    obtain ⟨-, rfl⟩ := Quantified.eq_of_append_eq item left (by omega) (by simp) h
    exact absurd hxs (by simp)
  | .minus left right, .single item, xs, ys, _, hys, h => by
    rw [Difference.lexemes, Difference.lexemes, List.append_assoc] at h
    obtain ⟨-, rfl⟩ := Quantified.eq_of_append_eq left item (by simp) (by omega) h
    exact absurd hys (by simp)
  | .minus left right, .minus left' right', _, _, hxs, hys, h => by
    rw [Difference.lexemes, Difference.lexemes, List.append_assoc, List.append_assoc] at h
    obtain ⟨rfl, hrest⟩ :=
      Quantified.eq_of_append_eq left left' (by simp) (by simp) h
    obtain ⟨rfl, htail⟩ := Quantified.eq_of_append_eq right right' (by omega) (by omega)
      (List.cons.inj hrest).2
    exact ⟨rfl, htail⟩

theorem Sequence.eq_of_append_eq : ∀ (s s' : Sequence) {xs ys : List Lexeme},
    bond xs ≤ 1 → bond ys ≤ 1 → s.lexemes ++ xs = s'.lexemes ++ ys → s = s' ∧ xs = ys
  | .single item, .single item', _, _, hxs, hys, h => by
    obtain ⟨rfl, hrest⟩ := Difference.eq_of_append_eq item item' (by omega) (by omega) h
    exact ⟨rfl, hrest⟩
  | .single item, .cons first rest, xs, ys, hxs, hys, h => by
    have hbond : bond (rest.lexemes ++ ys) = 2 := rest.bond_append (by omega)
    rw [Sequence.lexemes, Sequence.lexemes, List.append_assoc] at h
    obtain ⟨-, rfl⟩ := Difference.eq_of_append_eq item first (by omega) (by omega) h
    omega
  | .cons first rest, .single item, xs, ys, hxs, hys, h => by
    have hbond : bond (rest.lexemes ++ xs) = 2 := rest.bond_append (by omega)
    rw [Sequence.lexemes, Sequence.lexemes, List.append_assoc] at h
    obtain ⟨-, rfl⟩ := Difference.eq_of_append_eq first item (by omega) (by omega) h
    omega
  | .cons first rest, .cons first' rest', xs, ys, hxs, hys, h => by
    have hbond : bond (rest.lexemes ++ xs) = 2 := rest.bond_append (by omega)
    have hbond' : bond (rest'.lexemes ++ ys) = 2 := rest'.bond_append (by omega)
    rw [Sequence.lexemes, Sequence.lexemes, List.append_assoc, List.append_assoc] at h
    obtain ⟨rfl, hrest⟩ := Difference.eq_of_append_eq first first' (by omega) (by omega) h
    obtain ⟨rfl, htail⟩ := Sequence.eq_of_append_eq rest rest' hxs hys hrest
    exact ⟨rfl, htail⟩

theorem Expression.eq_of_append_eq : ∀ (e e' : Expression) {xs ys : List Lexeme},
    bond xs = 0 → bond ys = 0 → e.lexemes ++ xs = e'.lexemes ++ ys → e = e' ∧ xs = ys
  | .single items, .single items', _, _, hxs, hys, h => by
    obtain ⟨rfl, hrest⟩ := Sequence.eq_of_append_eq items items' (by omega) (by omega) h
    exact ⟨rfl, hrest⟩
  | .single items, .cons first rest, xs, ys, hxs, _, h => by
    rw [Expression.lexemes, Expression.lexemes, List.append_assoc] at h
    obtain ⟨-, rfl⟩ := Sequence.eq_of_append_eq items first (by omega) (by simp) h
    cases hxs
  | .cons first rest, .single items, xs, ys, _, hys, h => by
    rw [Expression.lexemes, Expression.lexemes, List.append_assoc] at h
    obtain ⟨-, rfl⟩ := Sequence.eq_of_append_eq first items (by simp) (by omega) h
    cases hys
  | .cons first rest, .cons first' rest', _, _, hxs, hys, h => by
    rw [Expression.lexemes, Expression.lexemes, List.append_assoc, List.append_assoc] at h
    obtain ⟨rfl, hrest⟩ := Sequence.eq_of_append_eq first first' (by simp) (by simp) h
    obtain ⟨rfl, htail⟩ := Expression.eq_of_append_eq rest rest' hxs hys (List.cons.inj hrest).2
    exact ⟨rfl, htail⟩

end

/-- A row of lexemes is written from one row of definitions only. -/
theorem eq_of_flatMap_lexemes_eq {ds ds' : List Definition}
    (h : ds.flatMap Definition.lexemes = ds'.flatMap Definition.lexemes) : ds = ds' := by
  induction ds generalizing ds' with
  | nil =>
    cases ds' with
    | nil => rfl
    | cons => cases h
  | cons d ds ih =>
    cases ds' with
    | nil => cases h
    | cons d' ds' =>
      obtain ⟨name, body⟩ := d
      obtain ⟨name', body'⟩ := d'
      obtain ⟨hname, h⟩ := List.cons.inj h
      obtain ⟨-, h⟩ := List.cons.inj h
      obtain ⟨rfl, hrest⟩ :=
        Expression.eq_of_append_eq body body' (bond_definitions ds) (bond_definitions ds') h
      cases hname
      rw [ih hrest]

theorem Derivation.unique {ls : List Lexeme} {ds ds' : List Definition} (h : Derivation ls ds)
    (h' : Derivation ls ds') : ds = ds' :=
  eq_of_flatMap_lexemes_eq (h.2.trans h'.2.symm)

/-! ## Names before definition signs -/

mutual

theorem Primary.define_not_mem : ∀ p : Primary, .define ∉ p.lexemes
  | .group inner => by simpa [Primary.lexemes] using Expression.define_not_mem inner
  | .literal _ => by simp [Primary.lexemes]
  | .charSet _ => by simp [Primary.lexemes]
  | .charCode _ => by simp [Primary.lexemes]
  | .name _ => by simp [Primary.lexemes]

theorem Quantified.define_not_mem : ∀ q : Quantified, .define ∉ q.lexemes
  | .plain item => Primary.define_not_mem item
  | .marked item mark => by
    cases mark <;> simpa [Quantified.lexemes, Mark.lexeme] using Primary.define_not_mem item

theorem Difference.define_not_mem : ∀ d : Difference, .define ∉ d.lexemes
  | .single item => Quantified.define_not_mem item
  | .minus left right => by
    simp [Difference.lexemes, Quantified.define_not_mem left, Quantified.define_not_mem right]

theorem Sequence.define_not_mem : ∀ s : Sequence, .define ∉ s.lexemes
  | .single item => Difference.define_not_mem item
  | .cons first rest => by
    simp [Sequence.lexemes, Difference.define_not_mem first, Sequence.define_not_mem rest]

/-- No definition sign stands in an expression. -/
theorem Expression.define_not_mem : ∀ e : Expression, .define ∉ e.lexemes
  | .single items => Sequence.define_not_mem items
  | .cons first rest => by
    simp [Expression.lexemes, Sequence.define_not_mem first, Expression.define_not_mem rest]

end

/-- Within one definition, only the name of the definition stands before a definition sign. -/
theorem Definition.eq_nil_of_lexemes_eq {d : Definition} {before after : List Lexeme}
    {name : String} (h : d.lexemes = before ++ .name name :: .define :: after) :
    before = [] ∧ d.name = name := by
  obtain ⟨header, body⟩ := d
  match before with
  | [] =>
    obtain ⟨hname, -⟩ := List.cons.inj h
    exact ⟨rfl, Lexeme.name.inj hname⟩
  | [_] => cases (List.cons.inj h).2
  | _ :: _ :: before =>
    obtain ⟨-, hbody⟩ := List.cons.inj (List.cons.inj h).2
    exact absurd (hbody ▸ by simp) body.define_not_mem

/-- **A name before a definition sign starts a definition**, and so is no primary of the one
before. -/
theorem exists_header {ds : List Definition} {before after : List Lexeme} {name : String}
    (h : ds.flatMap Definition.lexemes = before ++ .name name :: .define :: after) :
    ∃ ds₁ d ds₂, ds = ds₁ ++ d :: ds₂ ∧ ds₁.flatMap Definition.lexemes = before ∧
      d.name = name := by
  induction ds generalizing before with
  | nil => simp at h
  | cons d ds ih =>
    rw [List.flatMap_cons] at h
    rcases List.append_eq_append_iff.1 h with ⟨front, rfl, hds⟩ | ⟨rest, hd, hds⟩
    · -- the name stands after the first definition
      obtain ⟨ds₁, header, ds₂, rfl, hbefore, hname⟩ := ih hds
      exact ⟨d :: ds₁, header, ds₂, rfl, by rw [List.flatMap_cons, hbefore], hname⟩
    · match rest, hd, hds with
      | [], hd, hds =>
        have hhead : ds.flatMap Definition.lexemes = [] ++ .name name :: .define :: after :=
          hds.symm
        obtain ⟨ds₁, header, ds₂, rfl, hbefore, hname⟩ := ih hhead
        exact ⟨d :: ds₁, header, ds₂, rfl, by simp [hbefore, hd], hname⟩
      | [_], _, hds =>
        obtain ⟨-, hsign⟩ : _ ∧ .define :: after = ds.flatMap Definition.lexemes :=
          List.cons.inj hds
        have hbond := bond_definitions ds
        rw [← hsign] at hbond
        cases hbond
      | x :: y :: rest, hd, hds =>
        obtain ⟨hx, hy⟩ : Lexeme.name name = x ∧
            .define :: after = y :: (rest ++ ds.flatMap Definition.lexemes) := List.cons.inj hds
        obtain ⟨hy, -⟩ := List.cons.inj hy
        rw [← hx, ← hy] at hd
        obtain ⟨rfl, hname⟩ := d.eq_nil_of_lexemes_eq hd
        exact ⟨[], d, ds, rfl, rfl, hname⟩

end MarkupFilter.RuleText
