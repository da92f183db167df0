import MarkupFilter.Proofs.Grammar.TokenRows

/-!
# Derivations

What a rule matches, told by rules of inference. A derivation that ends in a match is put together
from the matches of its parts alone: an alternative, an item or a step that fails shows in it as a
premise without a match, and gives nothing to the result. Every part yields at most one outcome, and
without left recursion every named rule yields one: the plain match.

## Main definitions

* `Part` — what an outcome is derived for.
* `Yields` — the rules of inference.

## Main results

* `Yields.deterministic` — no two outcomes are derived.
* `yields_body?` — the plain match of a named rule is derived.
* `yields_named_iff` — nothing else is.
* `matchAt_eq_some_iff`, `matchAt_eq_none_iff` — so is the match that is run, and its failure.
-/

set_option autoImplicit false

namespace MarkupFilter.Grammar

/-! ## Rules of inference -/

/-- A part of a grammar that is tried at the start of a window. -/
inductive Part where
  /-- The body of a named rule. -/
  | named (name : String)
  /-- A rule, as often as its quantifier says. -/
  | rule (rule : Rule)
  /-- One step of a rule, whatever its quantifier. -/
  | step (rule : Rule)
  /-- Steps of a rule, as many as there are. -/
  | steps (rule : Rule)
  /-- All of several items. -/
  | items (items : List Rule)
  /-- The first of several alternatives. -/
  | alternatives (alternatives : List Rule)

/-- The part, tried at the start of the window, has the given outcome: a match, or none. -/
inductive Yields (g : Grammar) : Part → Window → Option Match → Prop where
  | undefined {name : String} {w : Window} (hname : g.rule? name = none) :
      Yields g (.named name) w none
  | body {name : String} {body : Rule} {w : Window} {o : Option Match}
      (hbody : g.rule? name = some body) (h : Yields g (.rule body) w o) :
      Yields g (.named name) w o
  -- quantifiers
  | one {rule : Rule} {w : Window} {o : Option Match} (hq : rule.quantifier = .one)
      (h : Yields g (.step rule) w o) : Yields g (.rule rule) w o
  | optional {rule : Rule} {w : Window} {o : Option Match} (hq : rule.quantifier = .optional)
      (h : Yields g (.step rule) w o) : Yields g (.rule rule) w (some (o.getD .empty))
  | zeroOrMore {rule : Rule} {w : Window} {o : Option Match} (hq : rule.quantifier = .zeroOrMore)
      (h : Yields g (.steps rule) w o) : Yields g (.rule rule) w o
  | oneOrMore {rule : Rule} {w : Window} {m : Match} {o : Option Match}
      (hq : rule.quantifier = .oneOrMore) (hfirst : Yields g (.step rule) w (some m))
      (h : Yields g (.steps rule) w o) : Yields g (.rule rule) w o
  | notOnce {rule : Rule} {w : Window} (hq : rule.quantifier = .oneOrMore)
      (h : Yields g (.step rule) w none) : Yields g (.rule rule) w none
  -- repetition: a match of nothing is the last
  | noMore {rule : Rule} {w : Window} (h : Yields g (.step rule) w none) :
      Yields g (.steps rule) w (some .empty)
  | last {rule : Rule} {w : Window} {m : Match} (h : Yields g (.step rule) w (some m))
      (hm : m.length = 0) : Yields g (.steps rule) w (some m)
  | again {rule : Rule} {w : Window} {m more : Match} (h : Yields g (.step rule) w (some m))
      (hm : m.length ≠ 0) (hmore : Yields g (.steps rule) (w.drop m.length) (some more)) :
      Yields g (.steps rule) w (some (m.append more))
  -- steps
  | literal {q : Quantifier} {text : List Char} {w : Window} :
      Yields g (.step (.literal q text)) w (w.literal? text)
  | charSet {q : Quantifier} {set : CharSet} {w : Window} :
      Yields g (.step (.charSet q set)) w (w.char? set.contains)
  | charCode {q : Quantifier} {code : Char} {w : Window} :
      Yields g (.step (.charCode q code)) w (w.char? (· == code))
  | sequence {q : Quantifier} {items : List Rule} {w : Window} {o : Option Match}
      (h : Yields g (.items items) w o) : Yields g (.step (.sequence q items)) w o
  | choice {q : Quantifier} {alternatives : List Rule} {w : Window} {o : Option Match}
      (h : Yields g (.alternatives alternatives) w o) :
      Yields g (.step (.choice q alternatives)) w o
  | upTo {q : Quantifier} {left right : Rule} {w : Window} {n : Nat} {m : Match}
      {o : Option Match} (hn : n < w.size)
      (hbefore : ∀ k < n, Yields g (.rule right) (w.drop k) none)
      (hright : Yields g (.rule right) (w.drop n) (some m))
      (h : Yields g (.rule left) (w.upTo (w.place + n)) o) :
      Yields g (.step (.difference q left right)) w o
  | throughout {q : Quantifier} {left right : Rule} {w : Window} {o : Option Match}
      (hright : ∀ k < w.size, Yields g (.rule right) (w.drop k) none)
      (h : Yields g (.rule left) w o) : Yields g (.step (.difference q left right)) w o
  | reference {q : Quantifier} {name : String} {w : Window} {o : Option Match}
      (h : Yields g (.named name) w o) :
      Yields g (.step (.reference q name)) w (o.map (·.named name w))
  -- sequences
  | noItem {w : Window} : Yields g (.items []) w (some .empty)
  | item {item : Rule} {rest : List Rule} {w : Window} {m : Match} {o : Option Match}
      (h : Yields g (.rule item) w (some m)) (hrest : Yields g (.items rest) (w.drop m.length) o) :
      Yields g (.items (item :: rest)) w (o.map m.append)
  | missing {item : Rule} {rest : List Rule} {w : Window} (h : Yields g (.rule item) w none) :
      Yields g (.items (item :: rest)) w none
  -- choices
  | noAlternative {w : Window} : Yields g (.alternatives []) w none
  | chosen {alternative : Rule} {rest : List Rule} {w : Window} {m : Match}
      (h : Yields g (.rule alternative) w (some m)) :
      Yields g (.alternatives (alternative :: rest)) w (some m)
  | next {alternative : Rule} {rest : List Rule} {w : Window} {o : Option Match}
      (h : Yields g (.rule alternative) w none) (hrest : Yields g (.alternatives rest) w o) :
      Yields g (.alternatives (alternative :: rest)) w o

section

variable {g : Grammar} {part : Part} {w : Window} {o o' : Option Match}

/-- **No two outcomes are derived.** -/
theorem Yields.deterministic (h : g.Yields part w o) (h' : g.Yields part w o') : o = o' := by
  induction h generalizing o' with
  | undefined hname =>
    cases h' with
    | undefined => rfl
    | body hbody => simp [hname] at hbody
  | body hbody _ ih =>
    cases h' with
    | undefined hname => simp [hname] at hbody
    | body hbody' h' =>
      obtain rfl := Option.some.inj (hbody.symm.trans hbody')
      exact ih h'
  | one hq _ ih =>
    cases h' with
    | one _ h' => exact ih h'
    | _ => simp_all
  | optional hq _ ih =>
    cases h' with
    | optional _ h' => rw [ih h']
    | _ => simp_all
  | zeroOrMore hq _ ih =>
    cases h' with
    | zeroOrMore _ h' => exact ih h'
    | _ => simp_all
  | oneOrMore hq _ _ ihfirst ih =>
    cases h' with
    | oneOrMore _ _ h' => exact ih h'
    | notOnce _ h' => cases ihfirst h'
    | _ => simp_all
  | notOnce hq _ ih =>
    cases h' with
    | oneOrMore _ hfirst _ => cases ih hfirst
    | notOnce => rfl
    | _ => simp_all
  | noMore _ ih =>
    cases h' with
    | noMore => rfl
    | last h' _ => cases ih h'
    | again h' _ _ => cases ih h'
  | last _ hm ih =>
    cases h' with
    | noMore h' => cases ih h'
    | last h' _ => exact ih h'
    | again h' hm' _ =>
      cases ih h'
      exact absurd hm hm'
  | again _ hm _ ih ihmore =>
    cases h' with
    | noMore h' => cases ih h'
    | last h' hm' =>
      cases ih h'
      exact absurd hm' hm
    | again h' _ hmore' =>
      cases ih h'
      cases ihmore hmore'
      rfl
  | literal => cases h'; rfl
  | charSet => cases h'; rfl
  | charCode => cases h'; rfl
  | sequence _ ih =>
    cases h' with
    | sequence h' => exact ih h'
  | choice _ ih =>
    cases h' with
    | choice h' => exact ih h'
  | @upTo q left right w n m o hn hbefore hright _ ihbefore ihright ih =>
    cases h' with
    | @upTo _ _ _ _ n' m' _ hn' hbefore' hright' h' =>
      -- the nearer one of the two matches stands where the other derivation has none
      rcases Nat.lt_trichotomy n n' with hlt | rfl | hlt
      · cases ihright (hbefore' n hlt)
      · exact ih h'
      · cases ihbefore n' hlt hright'
    | throughout hright' h' => cases ihright (hright' n hn)
  | throughout hright _ ihright ih =>
    cases h' with
    | upTo hn' _ hright' _ => cases ihright _ hn' hright'
    | throughout _ h' => exact ih h'
  | reference _ ih =>
    cases h' with
    | reference h' => rw [ih h']
  | noItem => cases h'; rfl
  | item _ _ ih ihrest =>
    cases h' with
    | item h' hrest' =>
      cases ih h'
      rw [ihrest hrest']
    | missing h' => cases ih h'
  | missing _ ih =>
    cases h' with
    | item h' _ => cases ih h'
    | missing => rfl
  | noAlternative => cases h'; rfl
  | chosen _ ih =>
    cases h' with
    | chosen h' => exact ih h'
    | next h' _ => cases ih h'
  | next _ _ ih ihrest =>
    cases h' with
    | chosen h' => cases ih h'
    | next _ hrest' => exact ihrest hrest'

end

/-! ## Plain matches are derived -/

/-- The plain match of one step of a rule, whatever its quantifier. -/
def Rule.step? (call : String → Window → Option Match) (rule : Rule) : Window → Option Match :=
  Rule.matches? call (rule.withQuantifier .one)

theorem Rule.matches?_eq (call : String → Window → Option Match) (rule : Rule) (w : Window) :
    Rule.matches? call rule w = rule.quantifier.matches? (rule.step? call) w := by
  cases rule <;>
    · rw [Rule.step?, Rule.withQuantifier, Rule.quantifier, Rule.matches?]
      congr 1

theorem nearestMatch_eq_some {once : Window → Option Match} {w : Window} {place : Nat}
    (h : nearestMatch once w = some place) : ∃ n m, n < w.size ∧ place = w.place + n ∧
      once (w.drop n) = some m ∧ ∀ k < n, once (w.drop k) = none := by
  obtain ⟨n, hfind, rfl⟩ := Option.map_eq_some_iff.1 h
  obtain ⟨hn, hmem, hbefore⟩ := List.find?_range_eq_some.1 hfind
  obtain ⟨m, hm⟩ := Option.isSome_iff_exists.1 hn
  exact ⟨n, m, List.mem_range.1 hmem, rfl, hm, fun k hk => by simpa using hbefore k hk⟩

theorem nearestMatch_eq_none {once : Window → Option Match} {w : Window}
    (h : nearestMatch once w = none) : ∀ k < w.size, once (w.drop k) = none := by
  intro k hk
  have hfind := List.find?_eq_none.1 (Option.map_eq_none_iff.1 h)
  simpa using hfind k (List.mem_range.2 hk)

variable {g : Grammar}

/-- The plain matches of named rules are derived in all windows of less than `n` characters, and for
the names in `started` in those of `n` characters too. -/
structure DerivedUpTo (g : Grammar) (n : Nat) (started : String → Prop) : Prop where
  smaller : ∀ name w, w.size < n → g.Yields (.named name) w (g.body? name w)
  here : ∀ name, started name → ∀ w, w.size ≤ n → g.Yields (.named name) w (g.body? name w)

theorem DerivedUpTo.below {n k : Nat} {started : String → Prop} (h : g.DerivedUpTo n started)
    (hk : k < n) : g.DerivedUpTo k fun _ => True :=
  ⟨fun name w hw => h.smaller name w (by omega), fun name _ w hw => h.smaller name w (by omega)⟩

section

variable {rule : Rule} {n : Nat} {w : Window}

theorem yields_steps {once : Window → Option Match} (hfit : FitsWindow once)
    (h : ∀ w, w.size ≤ n → g.Yields (.step rule) w (once w)) (fuel : Nat) (hw : w.size ≤ n)
    (hfuel : w.size < fuel) : g.Yields (.steps rule) w (some (repeated once fuel w).found) := by
  induction fuel generalizing w with
  | zero => omega
  | succ fuel ih =>
    have hstep := h w hw
    rw [repeated]
    cases hm : once w with
    | none => exact .noMore (hm ▸ hstep)
    | some m =>
      have hle := hfit w m hm
      rw [hm] at hstep
      dsimp only
      split
      · next hzero => exact .last hstep hzero
      · next hpos =>
        refine .again hstep hpos (ih ?_ ?_) <;> rw [Window.size_drop] <;> omega

/-- If the steps of a rule are derived, so is the rule. -/
theorem yields_rule_of_steps
    (h : ∀ w, w.size ≤ n → g.Yields (.step rule) w (rule.step? g.body? w)) (hw : w.size ≤ n) :
    g.Yields (.rule rule) w (Rule.matches? g.body? rule w) := by
  have hfit : FitsWindow (rule.step? g.body?) := Rule.fitsWindow (tame_body? g).fits _
  have hstep := h w hw
  have hsteps := yields_steps hfit h (w.size + 1) hw (Nat.lt_succ_self _)
  rw [Rule.matches?_eq]
  cases hq : rule.quantifier with
  | one => exact .one hq hstep
  | optional => exact .optional hq hstep
  | zeroOrMore => exact .zeroOrMore hq hsteps
  | oneOrMore =>
    simp only [Quantifier.matches?, count_repeated_eq_zero]
    cases hm : rule.step? g.body? w with
    | none => exact .notOnce hq (hm ▸ hstep)
    | some m => exact .oneOrMore hq (hm ▸ hstep) hsteps

end

mutual

/-- The plain match of a rule is derived. Only the names that the rule starts with are looked at in
the window itself, all others in a smaller one. -/
theorem yields_rule : ∀ (rule : Rule) {n : Nat} {started : String → Prop},
    g.DerivedUpTo n started → (∀ name, rule.Starts g name → started name) → ∀ {w : Window},
      w.size ≤ n → g.Yields (.rule rule) w (Rule.matches? g.body? rule w)
  | .literal q text, _, _, _, _, _, hw => by
    refine yields_rule_of_steps (fun w _ => ?_) hw
    rw [Rule.step?, Rule.withQuantifier, Rule.matches?]
    exact .literal
  | .charSet q set, _, _, _, _, _, hw => by
    refine yields_rule_of_steps (fun w _ => ?_) hw
    rw [Rule.step?, Rule.withQuantifier, Rule.matches?]
    exact .charSet
  | .charCode q code, _, _, _, _, _, hw => by
    refine yields_rule_of_steps (fun w _ => ?_) hw
    rw [Rule.step?, Rule.withQuantifier, Rule.matches?]
    exact .charCode
  | .sequence q items, _, _, hderived, hs, _, hw => by
    refine yields_rule_of_steps (fun w hw => ?_) hw
    rw [Rule.step?, Rule.withQuantifier, Rule.matches?]
    exact .sequence (yields_items items hderived (fun name h => hs name (h.requantify q)) hw)
  | .choice q alternatives, _, _, hderived, hs, _, hw => by
    refine yields_rule_of_steps (fun w hw => ?_) hw
    rw [Rule.step?, Rule.withQuantifier, Rule.matches?]
    exact .choice (yields_alternatives alternatives hderived
      (fun a hmem name h => hs name (.choice hmem h)) hw)
  | .difference q left right, n, started, hderived, hs, _, hw => by
    refine yields_rule_of_steps (fun w hw => ?_) hw
    rw [Rule.step?, Rule.withQuantifier, Rule.matches?]
    have hleft : ∀ {w : Window}, w.size ≤ n →
        g.Yields (.rule left) w (Rule.matches? g.body? left w) :=
      yields_rule left hderived fun name h => hs name (.left h)
    have hright : ∀ k, g.Yields (.rule right) (w.drop k) (Rule.matches? g.body? right (w.drop k)) :=
      fun k => yields_rule right hderived (fun name h => hs name (.right h))
        (by rw [Window.size_drop]; omega)
    rw [Quantifier.matches?]
    split
    · next place hplace =>
      obtain ⟨k, m, hk, rfl, hm, hbefore⟩ := nearestMatch_eq_some hplace
      exact .upTo hk (fun j hj => hbefore j hj ▸ hright j) (hm ▸ hright k)
        (hleft ((w.size_upTo_le _).trans hw))
    · next hnone =>
      have hnowhere := nearestMatch_eq_none hnone
      exact .throughout (fun k hk => hnowhere k hk ▸ hright k) (hleft hw)
  | .reference q name, _, _, hderived, hs, _, hw => by
    refine yields_rule_of_steps (fun w hw => ?_) hw
    rw [Rule.step?, Rule.withQuantifier, Rule.matches?]
    exact .reference (hderived.here name (hs name .reference) w hw)

theorem yields_items : ∀ (items : List Rule) {n : Nat} {started : String → Prop},
    g.DerivedUpTo n started → (∀ name, Rule.Starts g (.sequence .one items) name → started name) →
      ∀ {w : Window}, w.size ≤ n →
        g.Yields (.items items) w (Rule.matchesAll? g.body? items w)
  | [], _, _, _, _, _, _ => by
    rw [Rule.matchesAll?]
    exact .noItem
  | item :: rest, n, started, hderived, hs, w, hw => by
    have hitem := yields_rule item hderived (fun name h => hs name h.head) hw
    rw [Rule.matchesAll?]
    cases hm : Rule.matches? g.body? item w with
    | none => exact .missing (hm ▸ hitem)
    | some m =>
      have hfit := Rule.fitsWindow (tame_body? g).fits item w m hm
      refine .item (hm ▸ hitem) ?_
      by_cases h0 : m.length = 0
      · have hnull := Rule.nullable_of_matches? (tame_body? g).nullable item hm h0
        exact yields_items rest hderived (fun name h => hs name (h.tail hnull))
          (by rw [Window.size_drop]; omega)
      · exact yields_items rest (hderived.below (k := (w.drop m.length).size)
          (by rw [Window.size_drop]; omega)) (fun _ _ => trivial) (Nat.le_refl _)

theorem yields_alternatives : ∀ (alternatives : List Rule) {n : Nat} {started : String → Prop},
    g.DerivedUpTo n started → (∀ a ∈ alternatives, ∀ name, a.Starts g name → started name) →
      ∀ {w : Window}, w.size ≤ n →
        g.Yields (.alternatives alternatives) w (Rule.matchesFirst? g.body? alternatives w)
  | [], _, _, _, _, _, _ => by
    rw [Rule.matchesFirst?]
    exact .noAlternative
  | alternative :: rest, _, _, hderived, hs, w, hw => by
    have hfirst := yields_rule alternative hderived (hs alternative (by simp)) hw
    rw [Rule.matchesFirst?]
    cases hm : Rule.matches? g.body? alternative w with
    | none =>
      exact .next (hm ▸ hfirst)
        (yields_alternatives rest hderived (fun a h => hs a (by simp [h])) hw)
    | some m => exact .chosen (hm ▸ hfirst)

end

/-- **The plain match of a named rule is derived.** The induction is on the size of the window and
then on the rank of the name: a rule looks at itself again only in a smaller window, and at rules of
smaller rank in the same one. -/
theorem yields_body? (hg : g.LeftRecursionFree) (name : String) (w : Window) :
    g.Yields (.named name) w (g.body? name w) := by
  induction hn : w.size using Nat.strongRecOn generalizing name w with
  | _ n ihsize =>
    induction hr : g.leftRank name using Nat.strongRecOn generalizing name w with
    | _ r ihrank =>
      rw [body?_eq hg]
      cases hbody : g.rule? name with
      | none => exact .undefined hbody
      | some body =>
        have hderived : g.DerivedUpTo n fun callee => g.leftRank callee < r := by
          refine ⟨fun callee v hv => ihsize v.size hv callee v rfl, fun callee hcallee v hv => ?_⟩
          rcases Nat.lt_or_eq_of_le hv with hlt | heq
          · exact ihsize v.size hlt callee v rfl
          · exact ihrank (g.leftRank callee) hcallee callee v heq rfl
        exact .body hbody (yields_rule body hderived
          (fun callee h => hr ▸ leftRank_lt hg ⟨body, hbody, h⟩) hn.le)

/-- **What is derived for a named rule is its plain match.** -/
theorem yields_named_iff (hg : g.LeftRecursionFree) {name : String} {w : Window}
    {o : Option Match} : g.Yields (.named name) w o ↔ o = g.body? name w :=
  ⟨fun h => h.deterministic (yields_body? hg name w), fun h => h ▸ yields_body? hg name w⟩

/-! ## Matches as they are run -/

section

variable {name : String} {w : Window}

/-- **A match is run exactly if it is derived.** -/
theorem matchAt_eq_some_iff (hg : g.LeftRecursionFree) {t : Token} :
    g.matchAt name w = some t ↔
      ∃ m, g.Yields (.named name) w (some m) ∧ t = m.toToken name w := by
  rw [matchAt_eq hg, Option.map_eq_some_iff]
  constructor
  · rintro ⟨m, hm, rfl⟩
    exact ⟨m, (yields_named_iff hg).2 hm.symm, rfl⟩
  · rintro ⟨m, hderived, rfl⟩
    exact ⟨m, ((yields_named_iff hg).1 hderived).symm, rfl⟩

theorem matchAt_eq_none_iff (hg : g.LeftRecursionFree) :
    g.matchAt name w = none ↔ g.Yields (.named name) w none := by
  rw [matchAt_eq hg, Option.map_eq_none_iff, yields_named_iff hg, eq_comm]

end

end MarkupFilter.Grammar
