import MarkupFilter.Grammar.Basic
import Mathlib.Data.Finset.Card
import Mathlib.Logic.Relation

/-!
# Left recursion

A rule that refers to itself before it has read anything would be followed for ever. In a grammar
without such rules the names can be ranked: what a rule refers to where it starts has a smaller
rank, and there are no more ranks than rules.

## Main definitions

* `Rule.Nullable` — the rule may match without reading anything.
* `Rule.Starts` — the rule may look at a named rule where it starts itself.
* `Grammar.LeftRecursionFree` — no rule leads back to itself at the place where it starts.
* `Grammar.leftRank` — the number of rules that are entered at one place, at most.

## Main results

* `Grammar.leftRank_lt`, `Grammar.leftRank_le` — the ranks decrease, and are bounded.
* `Grammar.leftRecursionFree_of_ranked` — an order of the names that shows it.
-/

set_option autoImplicit false

namespace MarkupFilter.Grammar

/-! ## What is looked at before anything is read -/

/-- Whether no match is needed. -/
def Quantifier.mayBeSkipped : Quantifier → Bool
  | .optional | .zeroOrMore => true
  | .one | .oneOrMore => false

/-- The rule may match without reading anything. -/
inductive Rule.Nullable (g : Grammar) : Rule → Prop where
  | skipped {rule : Rule} (h : rule.quantifier.mayBeSkipped = true) : Nullable g rule
  | literal {q : Quantifier} : Nullable g (.literal q [])
  | sequence {q : Quantifier} {items : List Rule} (h : ∀ item ∈ items, Nullable g item) :
      Nullable g (.sequence q items)
  | choice {q : Quantifier} {alternatives : List Rule} {alternative : Rule}
      (hmem : alternative ∈ alternatives) (h : Nullable g alternative) :
      Nullable g (.choice q alternatives)
  | difference {q : Quantifier} {left right : Rule} (h : Nullable g left) :
      Nullable g (.difference q left right)
  | reference {q : Quantifier} {name : String} {body : Rule} (hbody : g.rule? name = some body)
      (h : Nullable g body) : Nullable g (.reference q name)

/-- The rule may look at the rule called `name` where it starts itself: every item of a sequence
before it may read nothing. Both operands of a difference are tried where the difference starts. -/
inductive Rule.Starts (g : Grammar) : Rule → String → Prop where
  | reference {q : Quantifier} {name : String} : Starts g (.reference q name) name
  | sequence {q : Quantifier} {before after : List Rule} {item : Rule} {name : String}
      (hbefore : ∀ r ∈ before, r.Nullable g) (h : Starts g item name) :
      Starts g (.sequence q (before ++ item :: after)) name
  | choice {q : Quantifier} {alternatives : List Rule} {alternative : Rule} {name : String}
      (hmem : alternative ∈ alternatives) (h : Starts g alternative name) :
      Starts g (.choice q alternatives) name
  | left {q : Quantifier} {left right : Rule} {name : String} (h : Starts g left name) :
      Starts g (.difference q left right) name
  | right {q : Quantifier} {left right : Rule} {name : String} (h : Starts g right name) :
      Starts g (.difference q left right) name

namespace Rule.Starts

variable {g : Grammar} {q : Quantifier} {item : Rule} {rest : List Rule} {name : String}

theorem head (h : Starts g item name) : Starts g (.sequence q (item :: rest)) name :=
  show Starts g (.sequence q ([] ++ item :: rest)) name from .sequence (by simp) h

theorem tail (hitem : item.Nullable g) (h : Starts g (.sequence q rest) name) :
    Starts g (.sequence q (item :: rest)) name := by
  cases h with
  | @sequence _ before after next _ hbefore h =>
    have hall : ∀ r ∈ item :: before, r.Nullable g := List.forall_mem_cons.2 ⟨hitem, hbefore⟩
    exact show Starts g (.sequence q ((item :: before) ++ next :: after)) name from
      .sequence hall h

/-- How often a sequence is repeated does not matter for what it starts with. -/
theorem requantify {p : Quantifier} (h : Starts g (.sequence p rest) name) (q : Quantifier) :
    Starts g (.sequence q rest) name := by
  cases h with
  | sequence hbefore h => exact sequence hbefore h

end Rule.Starts

/-- The rule `caller` may look at the rule `callee` where it starts itself. -/
def LeftCalls (g : Grammar) (caller callee : String) : Prop :=
  ∃ body, g.rule? caller = some body ∧ body.Starts g callee

/-- No rule leads back to itself at the place where it starts. -/
def LeftRecursionFree (g : Grammar) : Prop :=
  ∀ name, ¬ Relation.TransGen g.LeftCalls name name

/-! ## Ranks -/

section

variable {g : Grammar}

theorem mem_rules_of_rule? {name : String} {body : Rule} (h : g.rule? name = some body) :
    (name, body) ∈ g.rules := by
  obtain ⟨before, after, hsplit, -⟩ := List.lookup_eq_some_iff.1 h
  exact hsplit ▸ by simp

open Classical in
/-- The number of rules that `name` leads to at the place where it starts, itself included. -/
noncomputable def leftRank (g : Grammar) (name : String) : Nat :=
  (g.names.toFinset.filter (Relation.ReflTransGen g.LeftCalls name)).card

theorem leftRank_le (name : String) : g.leftRank name ≤ g.rules.length := by
  classical
  refine (Finset.card_filter_le _ _).trans ((List.toFinset_card_le _).trans ?_)
  rw [names, List.length_map]

/-- What a rule looks at where it starts has a smaller rank: it leads to no other rules, and does
not lead back. -/
theorem leftRank_lt (hg : g.LeftRecursionFree) {caller callee : String}
    (h : g.LeftCalls caller callee) : g.leftRank callee < g.leftRank caller := by
  classical
  have hcaller : caller ∈ g.names := by
    obtain ⟨body, hbody, -⟩ := h
    exact List.mem_map_of_mem (mem_rules_of_rule? hbody)
  refine Finset.card_lt_card (Finset.ssubset_iff_subset_ne.2 ⟨fun name hname => ?_, fun heq => ?_⟩)
  · rw [Finset.mem_filter] at hname ⊢
    exact ⟨hname.1, .head h hname.2⟩
  · have hback : caller ∈ g.names.toFinset.filter (Relation.ReflTransGen g.LeftCalls callee) := by
      rw [heq, Finset.mem_filter, List.mem_toFinset]
      exact ⟨hcaller, .refl⟩
    exact hg caller (.head' h (Finset.mem_filter.1 hback).2)

end

/-! ## Showing that a grammar has no left recursion -/

mutual

/-- Whether a rule may match nothing, if of the named rules only those in `nullable` may. -/
def Rule.nullableIn (nullable : List String) : Rule → Bool
  | .literal q text => q.mayBeSkipped || text.isEmpty
  | .charSet q _ => q.mayBeSkipped
  | .charCode q _ => q.mayBeSkipped
  | .sequence q items => q.mayBeSkipped || allNullableIn nullable items
  | .choice q alternatives => q.mayBeSkipped || anyNullableIn nullable alternatives
  | .difference q left _ => q.mayBeSkipped || nullableIn nullable left
  | .reference q name => q.mayBeSkipped || nullable.contains name

/-- Whether all of several rules may match nothing. -/
def Rule.allNullableIn (nullable : List String) : List Rule → Bool
  | [] => true
  | rule :: rules => nullableIn nullable rule && allNullableIn nullable rules

/-- Whether one of several rules may match nothing. -/
def Rule.anyNullableIn (nullable : List String) : List Rule → Bool
  | [] => false
  | rule :: rules => nullableIn nullable rule || anyNullableIn nullable rules

end

mutual

/-- The names of the rules that a rule may look at where it starts. -/
def Rule.startsIn (nullable : List String) : Rule → List String
  | .literal .. => []
  | .charSet .. => []
  | .charCode .. => []
  | .sequence _ items => startsOfItems nullable items
  | .choice _ alternatives => startsOfAny nullable alternatives
  | .difference _ left right => startsIn nullable left ++ startsIn nullable right
  | .reference _ name => [name]

/-- The names that a sequence of the given items may look at where it starts. -/
def Rule.startsOfItems (nullable : List String) : List Rule → List String
  | [] => []
  | item :: items =>
    startsIn nullable item ++
      if nullableIn nullable item then startsOfItems nullable items else []

/-- The names that one of several rules may look at where it starts. -/
def Rule.startsOfAny (nullable : List String) : List Rule → List String
  | [] => []
  | rule :: rules => startsIn nullable rule ++ startsOfAny nullable rules

end

theorem Rule.allNullableIn_iff {nullable : List String} {rules : List Rule} :
    allNullableIn nullable rules = true ↔ ∀ rule ∈ rules, nullableIn nullable rule = true := by
  induction rules with
  | nil => simp [allNullableIn]
  | cons rule rules ih => simp [allNullableIn, ih]

theorem Rule.anyNullableIn_iff {nullable : List String} {rules : List Rule} :
    anyNullableIn nullable rules = true ↔ ∃ rule ∈ rules, nullableIn nullable rule = true := by
  induction rules with
  | nil => simp [anyNullableIn]
  | cons rule rules ih => simp [anyNullableIn, ih]

theorem Rule.mem_startsOfAny {nullable : List String} {rules : List Rule} {name : String} :
    name ∈ startsOfAny nullable rules ↔ ∃ rule ∈ rules, name ∈ startsIn nullable rule := by
  induction rules with
  | nil => simp [startsOfAny]
  | cons rule rules ih => simp [startsOfAny, ih]

theorem Rule.nullableIn_of_skipped (nullable : List String) {rule : Rule}
    (h : rule.quantifier.mayBeSkipped = true) : nullableIn nullable rule = true := by
  cases rule <;> simp_all [nullableIn, quantifier]

section

variable {g : Grammar} {nullable : List String}

/-- A set of names that holds whatever may match nothing by it holds every nullable rule. -/
theorem Rule.Nullable.nullableIn (hclosed : ∀ entry ∈ g.rules,
    entry.2.nullableIn nullable = true → entry.1 ∈ nullable) {rule : Rule} (h : rule.Nullable g) :
    rule.nullableIn nullable = true := by
  induction h with
  | skipped h => exact Rule.nullableIn_of_skipped nullable h
  | literal => simp [Rule.nullableIn]
  | sequence _ ih => simp [Rule.nullableIn, Rule.allNullableIn_iff.2 ih]
  | choice hmem _ ih => simp [Rule.nullableIn, Rule.anyNullableIn_iff.2 ⟨_, hmem, ih⟩]
  | difference _ ih => simp [Rule.nullableIn, ih]
  | reference hbody _ ih => simp [Rule.nullableIn, hclosed _ (mem_rules_of_rule? hbody) ih]

theorem Rule.Starts.mem_startsIn (hclosed : ∀ entry ∈ g.rules,
    entry.2.nullableIn nullable = true → entry.1 ∈ nullable) {rule : Rule} {name : String}
    (h : rule.Starts g name) : name ∈ rule.startsIn nullable := by
  induction h with
  | reference => simp [Rule.startsIn]
  | @sequence q before after item name hbefore _ ih =>
    rw [Rule.startsIn]
    induction before with
    | nil => simp [Rule.startsOfItems, ih]
    | cons first before ih' =>
      have hfirst := (hbefore first (by simp)).nullableIn hclosed
      simp [Rule.startsOfItems, hfirst, ih' fun r hr => hbefore r (by simp [hr])]
  | choice hmem _ ih => exact Rule.mem_startsOfAny.2 ⟨_, hmem, ih⟩
  | left _ ih => simp [Rule.startsIn, ih]
  | right _ ih => simp [Rule.startsIn, ih]

/-- A grammar has no left recursion if its names can be put in an order in which every rule starts
with earlier ones only. The names in `nullable` are those of the rules that may match nothing. -/
theorem leftRecursionFree_of_ranked (nullable order : List String)
    (hclosed : ∀ entry ∈ g.rules, entry.2.nullableIn nullable = true → entry.1 ∈ nullable)
    (horder : ∀ entry ∈ g.rules, ∀ name ∈ entry.2.startsIn nullable,
      order.idxOf name < order.idxOf entry.1) : g.LeftRecursionFree := by
  have hcalls : ∀ caller callee, g.LeftCalls caller callee →
      order.idxOf callee < order.idxOf caller := by
    rintro caller callee ⟨body, hbody, hstarts⟩
    exact horder _ (mem_rules_of_rule? hbody) callee (hstarts.mem_startsIn hclosed)
  intro name hloop
  have hlt : ∀ other, Relation.TransGen g.LeftCalls name other →
      order.idxOf other < order.idxOf name := by
    intro other h
    induction h with
    | single h => exact hcalls _ _ h
    | tail _ h ih => exact (hcalls _ _ h).trans ih
  exact Nat.lt_irrefl _ (hlt name hloop)

end

end MarkupFilter.Grammar
