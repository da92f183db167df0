/-!
# Grammar rules

A rule describes texts by ordered choice: its parts are tried in the order in which they are
written, and the first that fits is kept. Every node of a rule carries a quantifier that says how
often in a row it is to be matched.

## Main definitions

* `CharSet` — a set of characters by ranges.
* `Quantifier` — how often a node matches.
* `Rule` — a node of a rule.
* `Rule.references` — the names of the rules that a rule refers to.
* `Rule.same` — structural equality of rules.
-/

set_option autoImplicit false

namespace MarkupFilter.Grammar

/-- The characters in one of the inclusive `ranges`, or those in none of them. A range whose ends
are not in order is empty. -/
structure CharSet where
  ranges : List (Char × Char)
  negated : Bool
  deriving DecidableEq, Repr

/-- Whether `c` belongs to the set. -/
def CharSet.contains (set : CharSet) (c : Char) : Bool :=
  (set.ranges.any fun (low, high) => low ≤ c && c ≤ high) != set.negated

/-- How often in a row a node is matched. Repetition is greedy. -/
inductive Quantifier where
  /-- Exactly once. -/
  | one
  /-- Once or not at all. -/
  | optional
  /-- Any number of times. -/
  | zeroOrMore
  /-- At least once. -/
  | oneOrMore
  deriving DecidableEq, Repr

/-- A node of a rule, with its quantifier first. -/
inductive Rule where
  /-- The given text. -/
  | literal (quantifier : Quantifier) (text : List Char)
  /-- One character of a set. -/
  | charSet (quantifier : Quantifier) (set : CharSet)
  /-- One particular character. -/
  | charCode (quantifier : Quantifier) (code : Char)
  /-- Every item, one after the other. -/
  | sequence (quantifier : Quantifier) (items : List Rule)
  /-- The first alternative that matches. -/
  | choice (quantifier : Quantifier) (alternatives : List Rule)
  /-- The left operand, within the text before the nearest match of the right one. -/
  | difference (quantifier : Quantifier) (left right : Rule)
  /-- The rule of the given name. -/
  | reference (quantifier : Quantifier) (name : String)
  deriving Repr

namespace Rule

/-- How often the node is matched. -/
def quantifier : Rule → Quantifier
  | .literal q _ => q
  | .charSet q _ => q
  | .charCode q _ => q
  | .sequence q _ => q
  | .choice q _ => q
  | .difference q _ _ => q
  | .reference q _ => q

/-- The same node with another quantifier. -/
def withQuantifier (q : Quantifier) : Rule → Rule
  | .literal _ text => .literal q text
  | .charSet _ set => .charSet q set
  | .charCode _ code => .charCode q code
  | .sequence _ items => .sequence q items
  | .choice _ alternatives => .choice q alternatives
  | .difference _ left right => .difference q left right
  | .reference _ name => .reference q name

/-- The node repeated as `q` says. A node that is quantified already becomes the one item of a
sequence, so that both repetitions are kept. -/
def quantify (q : Quantifier) (rule : Rule) : Rule :=
  if rule.quantifier = .one then rule.withQuantifier q else .sequence q [rule]

mutual

/-- The names that a rule refers to, from left to right. -/
def references : Rule → List String
  | .literal .. => []
  | .charSet .. => []
  | .charCode .. => []
  | .sequence _ items => referencesOf items
  | .choice _ alternatives => referencesOf alternatives
  | .difference _ left right => references left ++ references right
  | .reference _ name => [name]

/-- The names that several rules refer to, from left to right. -/
def referencesOf : List Rule → List String
  | [] => []
  | rule :: rules => references rule ++ referencesOf rules

end

mutual

/-- Whether two rules are built alike, quantifiers included. -/
def same : Rule → Rule → Bool
  | .literal q a, .literal r b => q == r && a == b
  | .charSet q a, .charSet r b => q == r && a == b
  | .charCode q a, .charCode r b => q == r && a == b
  | .sequence q a, .sequence r b => q == r && sameAll a b
  | .choice q a, .choice r b => q == r && sameAll a b
  | .difference q a b, .difference r c d => q == r && same a c && same b d
  | .reference q a, .reference r b => q == r && a == b
  | _, _ => false

/-- Whether two lists of rules are alike item by item. -/
def sameAll : List Rule → List Rule → Bool
  | [], [] => true
  | a :: as, b :: bs => same a b && sameAll as bs
  | _, _ => false

end

/-- The right operand of a difference. -/
def subtrahend? : Rule → Option Rule
  | .difference _ _ right => some right
  | _ => none

mutual

/-- Rules that are built alike are equal. -/
theorem eq_of_same : ∀ (a b : Rule), same a b = true → a = b
  | .literal .., .literal .., h => by simp_all [same]
  | .charSet .., .charSet .., h => by simp_all [same]
  | .charCode .., .charCode .., h => by simp_all [same]
  | .sequence q a, .sequence r b, h => by
    simp only [same, Bool.and_eq_true, beq_iff_eq] at h
    rw [h.1, eq_of_sameAll a b h.2]
  | .choice q a, .choice r b, h => by
    simp only [same, Bool.and_eq_true, beq_iff_eq] at h
    rw [h.1, eq_of_sameAll a b h.2]
  | .difference q a b, .difference r c d, h => by
    simp only [same, Bool.and_eq_true, beq_iff_eq] at h
    rw [h.1.1, eq_of_same a c h.1.2, eq_of_same b d h.2]
  | .reference .., .reference .., h => by simp_all [same]

/-- Lists of rules that are alike item by item are equal. -/
theorem eq_of_sameAll : ∀ (as bs : List Rule), sameAll as bs = true → as = bs
  | [], [], _ => rfl
  | a :: as, b :: bs, h => by
    simp only [sameAll, Bool.and_eq_true] at h
    rw [eq_of_same a b h.1, eq_of_sameAll as bs h.2]

end

mutual

/-- A rule is built like itself. -/
theorem same_self : ∀ a : Rule, same a a = true
  | .literal .. => by simp [same]
  | .charSet .. => by simp [same]
  | .charCode .. => by simp [same]
  | .sequence _ items => by simp [same, sameAll_self items]
  | .choice _ alternatives => by simp [same, sameAll_self alternatives]
  | .difference _ left right => by simp [same, same_self left, same_self right]
  | .reference .. => by simp [same]

/-- A list of rules is like itself. -/
theorem sameAll_self : ∀ as : List Rule, sameAll as as = true
  | [] => rfl
  | a :: as => by simp [sameAll, same_self a, sameAll_self as]

end

instance : DecidableEq Rule := fun a b =>
  if h : same a b = true then isTrue (eq_of_same a b h)
  else isFalse fun e => h (e ▸ same_self a)

end Rule

end MarkupFilter.Grammar
