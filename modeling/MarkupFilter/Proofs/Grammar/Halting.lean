import MarkupFilter.Grammar.Cursor
import MarkupFilter.Proofs.Grammar.Remembering

/-!
# Matching comes to an end

The matcher follows references to a bounded depth, repeats a rule a bounded number of times, and has
an answer where a reference is undefined or a difference lacks an operand. None of this is ever
needed: a matcher that stops with a fault in each of these places does, in a grammar that was
accepted and has no left recursion, exactly what the matcher does.

## Main definitions

* `Fault` — what must not happen while a rule is matched.
* `Rule.check`, `Grammar.checkWith` — matching that stops with a fault.
* `Closed` — every reference of every rule is defined.
* `Mirrors` — a checking computation does what a plain one does, and stops with no fault.

## Main results

* `closed_of_ofDefinitions` — a grammar that is accepted is closed.
* `Rule.check_mirrors` — matching a rule is free of faults if its calls are.
* `checkWith_eq_matchWith` — matching is free of faults in a grammar without left recursion.

## Design

The depth to which references are followed is the only measure that a nested match has, and the fuel
of `runRepeated` the only one of a repetition. The faults `depth` and `repetition` stand where they
are used up, so a match without them would go the same way without any bound. A rule holds the two
operands of a difference as two fields; `checkDifference` is given a list of them all the same, so
that the fault of another number has a place to stand at.
-/

set_option autoImplicit false

namespace MarkupFilter.Grammar

/-! ## Matching that stops with a fault -/

/-- What must not happen while a rule is matched. -/
inductive Fault where
  /-- References are nested too deep: a rule leads back to itself for ever. -/
  | depth
  /-- A rule is still repeated after as many matches as there are characters. -/
  | repetition
  /-- A reference has no definition. -/
  | undefined (name : String)
  /-- A difference has a number of operands other than two. -/
  | operands (count : Nat)
  deriving DecidableEq, Repr

/-- A computation that remembers searches and may stop with a fault. -/
abbrev Checking (α : Type) : Type := StateT SearchMemo (Except Fault) α

/-- `runRepeated`, with a fault where the fuel is used up. -/
def checkRepeated (once : Window → Checking (Option Match)) :
    Nat → Nat → Nat → List Token → Window → Checking (Nat × Match)
  | 0, _, _, _, _ => throw .repetition
  | fuel + 1, count, length, tokens, w => do
    match ← once w with
    | none => return (count, ⟨length, tokens.reverse⟩)
    | some m =>
      let tokens := m.tokens.reverse ++ tokens
      if m.length = 0 then return (count + 1, ⟨length, tokens.reverse⟩)
      else checkRepeated once fuel (count + 1) (length + m.length) tokens (w.drop m.length)

/-- The match of one step under a quantifier. -/
def Quantifier.check (q : Quantifier) (once : Window → Checking (Option Match)) (w : Window) :
    Checking (Option Match) :=
  match q with
  | .one => once w
  | .optional => do return some ((← once w).getD .empty)
  | .zeroOrMore => do return some (← checkRepeated once (w.size + 1) 0 0 [] w).2
  | .oneOrMore => do
    let (count, m) ← checkRepeated once (w.size + 1) 0 0 [] w
    return if count = 0 then none else some m

/-- The first of the next `n` places from `w` on where `once` matches. -/
def checkFrom (once : Window → Checking (Option Match)) : Nat → Window → Checking (Option Nat)
  | 0, _ => pure none
  | n + 1, w => do
    match ← once w with
    | some _ => return some w.place
    | none => checkFrom once n (w.drop 1)

/-- The first place in `w` where `rule` matches; `once` is its match. -/
def checkScan (rule : Rule) (once : Window → Checking (Option Match)) (w : Window) :
    Checking (Option Nat) :=
  match rule with
  | .literal .one text => pure (literalPlace? w.input text w.size w.place)
  | _ => checkFrom once w.size w

/-- The first place in `w` where `rule` matches, remembered or searched for. -/
def checkNearest (rule : Rule) (once : Window → Checking (Option Match)) (w : Window) :
    Checking (Option Nat) := do
  match (← get).find? rule w with
  | some found => return found
  | none =>
    let found ← checkScan rule once w
    modify fun memo => memo.record rule w found
    return found

/-- `excluded?`, with a fault where a reference is undefined. -/
def checkExcluded (g : Grammar) : Rule → Checking (Option Rule)
  | .reference _ name =>
    match g.rule? name with
    | none => throw (.undefined name)
    | some body => pure body.subtrahend?
  | rule => pure rule.subtrahend?

/-- `unterminated`, with a fault where a reference is undefined. -/
def checkUnterminated (g : Grammar) (item next : Rule) (once : Window → Checking (Option Match))
    (w : Window) : Checking Bool := do
  match ← g.checkExcluded item with
  | none => return false
  | some right =>
    if right.same next then
      match ← checkNearest next once w with
      | some _ => return false
      | none => return (← once .nothing).isNone
    else return false

/-- The match of a difference of the given operands, each with its own match, with a fault where
these are not two. -/
def checkDifference :
    List (Rule × (Window → Checking (Option Match))) → Window → Checking (Option Match)
  | [(_, left), (rule, right)], w => do
    match ← checkNearest rule right w with
    | some place => left (w.upTo place)
    | none => left w
  | operands, _ => throw (.operands operands.length)

mutual

/-- The match of a rule at the start of a window, where `call` is the match of the body of a named
rule of `g`. -/
def Rule.check (g : Grammar) (call : String → Window → Checking (Option Match)) :
    Rule → Window → Checking (Option Match)
  | .literal q text, w => q.check (fun w => pure (w.literal? text)) w
  | .charSet q set, w => q.check (fun w => pure (w.char? set.contains)) w
  | .charCode q code, w => q.check (fun w => pure (w.char? (· == code))) w
  | .sequence q items, w => q.check (fun w => Rule.checkAll g call items w) w
  | .choice q alternatives, w => q.check (fun w => Rule.checkFirst g call alternatives w) w
  | .difference q left right, w =>
    q.check (checkDifference [(left, fun w => Rule.check g call left w),
      (right, fun w => Rule.check g call right w)]) w
  | .reference q name, w =>
    q.check (fun w => do return (← call name w).map fun m => m.named name w) w

/-- The match of all items one after the other. -/
def Rule.checkAll (g : Grammar) (call : String → Window → Checking (Option Match)) :
    List Rule → Window → Checking (Option Match)
  | [], _ => pure (some .empty)
  | [item], w => Rule.check g call item w
  | item :: next :: rest, w => do
    if ← checkUnterminated g item next (fun w => Rule.check g call next w) w then
      return none
    match ← Rule.check g call item w with
    | none => return none
    | some m => return (← Rule.checkAll g call (next :: rest) (w.drop m.length)).map m.append

/-- The match of the first alternative that has one. -/
def Rule.checkFirst (g : Grammar) (call : String → Window → Checking (Option Match)) :
    List Rule → Window → Checking (Option Match)
  | [], _ => pure none
  | alternative :: rest, w => do
    match ← Rule.check g call alternative w with
    | none => Rule.checkFirst g call rest w
    | some m => return some m

end

/-- `runBody`, with a fault where the depth is used up or the name is undefined. -/
def checkBody (g : Grammar) : Nat → String → Window → Checking (Option Match)
  | 0, _, _ => throw .depth
  | depth + 1, name, w =>
    match g.rule? name with
    | none => throw (.undefined name)
    | some rule => rule.check g (g.checkBody depth) w

/-- `matchWith`, with a fault where something happens that must not. -/
def checkWith (g : Grammar) (name : String) (w : Window) : Checking (Option Token) := do
  return (← g.checkBody (g.depthBound w) name w).map fun m => m.toToken name w

/-! ## Grammars that are accepted -/

/-- Every reference of every rule is defined. -/
def Closed (g : Grammar) : Prop :=
  ∀ entry ∈ g.rules, ∀ name ∈ entry.2.references, g.defines name = true

theorem closed_of_ofDefinitions {definitions : List (String × Rule)} {g : Grammar}
    (h : ofDefinitions definitions = .ok g) : g.Closed := by
  unfold ofDefinitions at h
  split at h
  · cases h
  dsimp only at h
  split at h
  · cases h
  split at h
  · cases h
  next hundefined =>
  cases h
  intro entry hentry name hname
  have hfind := List.findSome?_eq_none_iff.1 hundefined entry hentry
  have := List.find?_eq_none.1 (Option.map_eq_none_iff.1 hfind) name hname
  simpa using this

theorem Closed.of_rule? {g : Grammar} (hg : g.Closed) {name : String} {body : Rule}
    (h : g.rule? name = some body) : ∀ callee ∈ body.references, g.defines callee = true :=
  hg _ (mem_rules_of_rule? h)

/-! ## Checking does what matching does -/

section

variable (meaning : Rule → Window → Option Match) (input : IndexedText)

/-- The checking computation does what the plain one does, from every sound memo, and so stops with
no fault. -/
def Mirrors {α : Type} (x : Checking α) (y : Remembering α) : Prop :=
  ∀ memo : SearchMemo, memo.Sound meaning input → x.run memo = .ok (y.run memo)

/-- So it is at every window over the text of at most `n` characters. -/
def MirrorsUpTo (n : Nat) (checked : Window → Checking (Option Match))
    (once : Window → Remembering (Option Match)) : Prop :=
  ∀ w : Window, w.Over input → w.size ≤ n → Mirrors meaning input (checked w) (once w)

end

section

variable {meaning : Rule → Window → Option Match} {input : IndexedText} {α β : Type}

theorem Mirrors.pure (a : α) : Mirrors meaning input (Pure.pure a) (Pure.pure a) :=
  fun _ _ => rfl

/-- One computation after the other. What the second one needs to know of the first is what the
plain one answers. -/
theorem Mirrors.bind {x : Checking α} {y : Remembering α} {k : α → Checking β}
    {l : α → Remembering β} {post : α → Prop} (hx : Mirrors meaning input x y)
    (hy : Answers meaning input y post) (hk : ∀ a, post a → Mirrors meaning input (k a) (l a)) :
    Mirrors meaning input (x >>= k) (y >>= l) := by
  intro memo hmemo
  obtain ⟨hpost, hsound⟩ := hy memo hmemo
  rw [StateT.run_bind, hx memo hmemo]
  exact hk _ hpost _ hsound

/-- One computation after another that has a known result. -/
theorem Mirrors.bind_computes {x : Checking α} {y : Remembering α} {k : α → Checking β}
    {l : α → Remembering β} {a : α} (hx : Mirrors meaning input x y)
    (hy : Computes meaning input y a) (hk : Mirrors meaning input (k a) (l a)) :
    Mirrors meaning input (x >>= k) (y >>= l) :=
  hx.bind hy fun _ hb => hb ▸ hk

/-! ### Repetition -/

variable {checked : Window → Checking (Option Match)} {once : Window → Remembering (Option Match)}
  {spec : Window → Option Match} {n : Nat} {w : Window}

/-- Fuel for more matches than there are characters is never used up. -/
theorem checkRepeated_mirrors (h : MirrorsUpTo meaning input n checked once)
    (hspec : Follows meaning input n once spec) (hfit : FitsWindow spec)
    (fuel count length : Nat) (tokens : List Token) (hw : w.Over input) (hn : w.size ≤ n)
    (hfuel : w.size < fuel) :
    Mirrors meaning input (checkRepeated checked fuel count length tokens w)
      (runRepeated once fuel count length tokens w) := by
  induction fuel generalizing count length tokens w with
  | zero => omega
  | succ fuel ih =>
    rw [checkRepeated, runRepeated]
    refine (h w hw hn).bind_computes (hspec w hw hn) ?_
    cases hm : spec w with
    | none => exact Mirrors.pure _
    | some m =>
      dsimp only
      split
      · exact Mirrors.pure _
      · have hle := hfit w m hm
        exact ih _ _ _ (hw.drop hle) (by rw [Window.size_drop]; omega)
          (by rw [Window.size_drop]; omega)

theorem Quantifier.check_mirrors (q : Quantifier) (h : MirrorsUpTo meaning input n checked once)
    (hspec : Follows meaning input n once spec) (hfit : FitsWindow spec) :
    MirrorsUpTo meaning input n (q.check checked) (q.run once) := by
  intro w hw hn
  have hrepeated :=
    checkRepeated_mirrors h hspec hfit (w.size + 1) 0 0 [] hw hn (Nat.lt_succ_self _)
  have hanswers := runRepeated_computes hspec hfit (w.size + 1) 0 0 [] hw hn
  cases q with
  | one => exact h w hw hn
  | optional => exact (h w hw hn).bind_computes (hspec w hw hn) (Mirrors.pure _)
  | zeroOrMore => exact hrepeated.bind_computes hanswers (Mirrors.pure _)
  | oneOrMore => exact hrepeated.bind_computes hanswers (Mirrors.pure _)

/-! ### Searches -/

theorem checkFrom_mirrors (h : MirrorsUpTo meaning input n checked once)
    (hspec : Follows meaning input n once spec) {size : Nat} (hw : w.Over input) (hn : w.size ≤ n)
    (hsize : w.size = size) :
    Mirrors meaning input (checkFrom checked size w) (scanFrom once size w) := by
  induction size generalizing w with
  | zero => exact Mirrors.pure _
  | succ size ih =>
    rw [checkFrom, scanFrom]
    refine (h w hw hn).bind_computes (hspec w hw hn) ?_
    cases spec w with
    | none =>
      exact ih (hw.drop (n := 1) (by omega)) (by rw [Window.size_drop]; omega)
        (by rw [Window.size_drop]; omega)
    | some m => exact Mirrors.pure _

end

section

variable {g : Grammar} {input : IndexedText} {n : Nat} {started : String → Prop}
  {spec : String → Window → Option Match} {call : String → Window → Remembering (Option Match)}
  {checkedCall : String → Window → Checking (Option Match)}

/-- A search mirrors the plain one, whether it is answered from the memo or not. -/
theorem checkNearest_mirrors {rule : Rule} {checked : Window → Checking (Option Match)}
    {once : Window → Remembering (Option Match)}
    (h : MirrorsUpTo (Rule.matches? spec) input n checked once)
    (hspec : Follows (Rule.matches? spec) input n once (Rule.matches? spec rule)) :
    ∀ w : Window, w.Over input → w.size ≤ n →
      Mirrors (Rule.matches? spec) input (checkNearest rule checked w) (nearest rule once w) := by
  intro w hw hn memo hmemo
  have hscan : Mirrors (Rule.matches? spec) input (checkScan rule checked w)
      (scan rule once w) := by
    unfold checkScan
    split
    · exact Mirrors.pure _
    · next hliteral =>
      rw [scan]
      · exact checkFrom_mirrors h hspec hw hn rfl
      · exact hliteral
  rw [checkNearest, StateT.run_bind, StateT.run_get]
  cases hfind : memo.find? rule w with
  | some found =>
    rw [nearest_run_of_some hfind]
    simp only [pure_bind, hfind]
    rfl
  | none =>
    rw [nearest_run_of_none hfind]
    simp only [pure_bind, hfind]
    rw [StateT.run_bind, hscan memo hmemo]
    rfl

/-- What an item leaves out is looked up without a fault if its references are defined. -/
theorem checkExcluded_eq {item : Rule} (hitem : ∀ name ∈ item.references, g.defines name = true) :
    g.checkExcluded item = pure (g.excluded? item) := by
  cases item with
  | reference q name =>
    obtain ⟨body, hbody⟩ := Option.isSome_iff_exists.1 (hitem name (by simp [Rule.references]))
    simp only [checkExcluded, excluded?, hbody, Option.bind_some]
  | _ => rfl

theorem checkUnterminated_mirrors {item next : Rule}
    (hitem : ∀ name ∈ item.references, g.defines name = true)
    (he : EmptyAlike (Rule.matches? spec next)) {checked : Window → Checking (Option Match)}
    {once : Window → Remembering (Option Match)}
    (h : g.excluded? item = some next → MirrorsUpTo (Rule.matches? spec) input n checked once)
    (hspec : g.excluded? item = some next →
      Follows (Rule.matches? spec) input n once (Rule.matches? spec next))
    {w : Window} (hw : w.Over input) (hn : w.size ≤ n) :
    Mirrors (Rule.matches? spec) input (checkUnterminated g item next checked w)
      (unterminated g item next once w) := by
  rw [checkUnterminated, checkExcluded_eq hitem, pure_bind, unterminated]
  cases hexcluded : g.excluded? item with
  | none => exact Mirrors.pure _
  | some right =>
    dsimp only
    by_cases hsame : right.same next = true
    · obtain rfl := Rule.eq_of_same _ _ hsame
      rw [if_pos hsame, if_pos hsame]
      refine (checkNearest_mirrors (h hexcluded) (hspec hexcluded) w hw hn).bind
        (nearest_answers he (hspec hexcluded) hw hn) fun found _ => ?_
      cases found with
      | some q => exact Mirrors.pure _
      | none =>
        exact (h hexcluded _ Window.Over.nothing (Nat.zero_le n)).bind_computes
          (hspec hexcluded _ Window.Over.nothing (Nat.zero_le n)) (Mirrors.pure _)
    · rw [if_neg hsame, if_neg hsame]
      exact Mirrors.pure _

/-! ### Rules -/

/-- The checking calls of defined names do what the plain ones do, in all windows in which the names
may be called. -/
structure Guards (input : IndexedText) (g : Grammar) (n : Nat) (started : String → Prop)
    (checkedCall : String → Window → Checking (Option Match))
    (call : String → Window → Remembering (Option Match))
    (spec : String → Window → Option Match) : Prop extends
    Refines input g n started call spec where
  mirrors_smaller : ∀ name k, k < n → g.defines name = true →
    MirrorsUpTo (Rule.matches? spec) input k (checkedCall name) (call name)
  mirrors_here : ∀ name, started name → g.defines name = true →
    MirrorsUpTo (Rule.matches? spec) input n (checkedCall name) (call name)

theorem Guards.below (h : Guards input g n started checkedCall call spec) {k : Nat} (hk : k < n) :
    Guards input g k (fun _ => True) checkedCall call spec :=
  ⟨h.toRefines.below hk, fun name _ hj => h.mirrors_smaller name _ (hj.trans hk),
    fun name _ => h.mirrors_smaller name k hk⟩

theorem checkDifference_mirrors {left right : Rule} (htame : g.Tame spec)
    (hleft : MirrorsUpTo (Rule.matches? spec) input n (Rule.check g checkedCall left)
      (Rule.run g call left))
    (hright : MirrorsUpTo (Rule.matches? spec) input n (Rule.check g checkedCall right)
      (Rule.run g call right))
    (hspec : Follows (Rule.matches? spec) input n (Rule.run g call right)
      (Rule.matches? spec right)) :
    MirrorsUpTo (Rule.matches? spec) input n
      (Rule.check g checkedCall (.difference .one left right))
      (Rule.run g call (.difference .one left right)) := by
  intro w hw hn
  rw [Rule.check, Rule.run, Quantifier.check, Quantifier.run, checkDifference]
  refine (checkNearest_mirrors hright hspec w hw hn).bind
    (nearest_answers (Rule.emptyAlike htame.alike right) hspec hw hn) fun found _ => ?_
  cases found with
  | none => exact hleft w hw hn
  | some place => exact hleft _ (hw.upTo place) ((w.size_upTo_le place).trans hn)

theorem Rule.check_eq (rule : Rule) : Rule.check g checkedCall rule =
    rule.quantifier.check (Rule.check g checkedCall (rule.withQuantifier .one)) := by
  funext w
  cases rule <;> rw [Rule.check] <;> rfl

theorem Rule.run_eq (rule : Rule) : Rule.run g call rule =
    rule.quantifier.run (Rule.run g call (rule.withQuantifier .one)) := by
  funext w
  cases rule <;> rw [Rule.run] <;> rfl

theorem Rule.Starts.of_withQuantifier {rule : Rule} {q : Quantifier} {name : String}
    (h : (rule.withQuantifier q).Starts g name) : rule.Starts g name := by
  cases rule with
  | sequence p items => exact h.requantify p
  | choice =>
    cases h with
    | choice hmem h => exact .choice hmem h
  | difference =>
    cases h with
    | left h => exact .left h
    | right h => exact .right h
  | reference =>
    cases h
    exact .reference
  | _ => cases h

/-- A node is free of faults under a quantifier if it is where it is matched once. -/
theorem Guards.quantified (hg : Guards input g n started checkedCall call spec)
    (htame : g.Tame spec) {rule : Rule} (hs : ∀ name, rule.Starts g name → started name)
    (h : MirrorsUpTo (Rule.matches? spec) input n
      (Rule.check g checkedCall (rule.withQuantifier .one))
      (Rule.run g call (rule.withQuantifier .one))) :
    MirrorsUpTo (Rule.matches? spec) input n (Rule.check g checkedCall rule)
      (Rule.run g call rule) := by
  rw [Rule.check_eq rule, Rule.run_eq rule]
  exact rule.quantifier.check_mirrors h
    (Rule.run_computes htame _ hg.toRefines fun name hname => hs name hname.of_withQuantifier)
    (Rule.fitsWindow htame.fits _)

/-- What follows an item of a sequence is matched in a smaller window, or the item may read nothing
and the sequence starts with what follows it. -/
theorem Guards.after (hg : Guards input g n started checkedCall call spec) (htame : g.Tame spec)
    {item : Rule} {rest : List Rule} {w : Window} {m : Match}
    (hs : ∀ name, Rule.Starts g (.sequence .one (item :: rest)) name → started name)
    (hn : w.size ≤ n) (hm : Rule.matches? spec item w = some m) :
    ∃ (k : Nat) (started' : String → Prop), Guards input g k started' checkedCall call spec ∧
      (∀ name, Rule.Starts g (.sequence .one rest) name → started' name) ∧
      (w.drop m.length).size ≤ k := by
  have hfit := Rule.fitsWindow htame.fits item w m hm
  by_cases h0 : m.length = 0
  · have hnull := Rule.nullable_of_matches? htame.nullable item hm h0
    exact ⟨n, started, hg, fun name h => hs name (h.tail hnull), by rw [Window.size_drop]; omega⟩
  · have hlt : (w.drop m.length).size < n := by
      rw [Window.size_drop]
      omega
    exact ⟨_, _, hg.below hlt, fun _ _ => trivial, Nat.le_refl _⟩

mutual

/-- **Matching a rule stops with no fault** if its calls do not, and all its references are defined.

The induction is on the rule, and follows `Rule.run_computes`, which says what the plain match finds
before it goes on: only the names that the rule starts with are called on the whole window. -/
theorem Rule.check_mirrors (htame : g.Tame spec) : ∀ (rule : Rule) {n : Nat}
    {started : String → Prop}, Guards input g n started checkedCall call spec →
      (∀ name ∈ rule.references, g.defines name = true) →
      (∀ name, rule.Starts g name → started name) →
        MirrorsUpTo (Rule.matches? spec) input n (Rule.check g checkedCall rule)
          (Rule.run g call rule)
  | .literal q text, n, _, hg, _, hs => hg.quantified htame hs fun _ _ _ => Mirrors.pure _
  | .charSet q set, n, _, hg, _, hs => hg.quantified htame hs fun _ _ _ => Mirrors.pure _
  | .charCode q code, n, _, hg, _, hs => hg.quantified htame hs fun _ _ _ => Mirrors.pure _
  | .sequence q items, n, _, hg, hd, hs => by
    refine hg.quantified htame hs fun w hw hn => ?_
    have hitems := Rule.checkAll_mirrors htame items hg hd fun name h => hs name (h.requantify q)
    exact hitems w hw hn
  | .choice q alternatives, n, _, hg, hd, hs => by
    refine hg.quantified htame hs fun w hw hn => ?_
    have halternatives := Rule.checkFirst_mirrors htame alternatives hg hd fun a hmem name h =>
      hs name (.choice hmem h)
    exact halternatives w hw hn
  | .difference q left right, n, _, hg, hd, hs => by
    rw [Rule.references, List.forall_mem_append] at hd
    have hleft := Rule.check_mirrors htame left hg hd.1 fun name h => hs name (.left h)
    have hright := Rule.check_mirrors htame right hg hd.2 fun name h => hs name (.right h)
    have hspec := Rule.run_computes htame right hg.toRefines fun name h => hs name (.right h)
    exact hg.quantified htame hs (checkDifference_mirrors htame hleft hright hspec)
  | .reference q name, n, _, hg, hd, hs => by
    have hcall := hg.mirrors_here name (hs name .reference) (hd name (by simp [Rule.references]))
    have hspec := hg.here name (hs name .reference)
    refine hg.quantified htame hs fun w hw hn => ?_
    rw [Rule.withQuantifier, Rule.check, Rule.run]
    exact (hcall w hw hn).bind_computes (hspec w hw hn) (Mirrors.pure _)

/-- Matching items one after the other stops with no fault. What follows an item that has read
something is matched in a smaller window. -/
theorem Rule.checkAll_mirrors (htame : g.Tame spec) : ∀ (items : List Rule) {n : Nat}
    {started : String → Prop}, Guards input g n started checkedCall call spec →
      (∀ name ∈ Rule.referencesOf items, g.defines name = true) →
      (∀ name, Rule.Starts g (.sequence .one items) name → started name) →
        MirrorsUpTo (Rule.matches? spec) input n (fun w => Rule.checkAll g checkedCall items w)
          fun w => Rule.runAll g call items w
  | [], n, _, _, _, _ => fun _ _ _ => Mirrors.pure _
  | [item], n, _, hg, hd, hs => by
    rw [Rule.referencesOf, List.forall_mem_append] at hd
    exact Rule.check_mirrors htame item hg hd.1 fun name h => hs name h.head
  | item :: next :: rest, n, _, hg, hd, hs => by
    intro w hw hn
    rw [Rule.referencesOf, List.forall_mem_append] at hd
    have hitem := Rule.check_mirrors htame item hg hd.1 fun name h => hs name h.head
    have hspec := Rule.run_computes htame item hg.toRefines fun name h => hs name h.head
    have hdnext : ∀ name ∈ next.references, g.defines name = true := by
      have := hd.2
      rw [Rule.referencesOf, List.forall_mem_append] at this
      exact this.1
    have hsnext : g.excluded? item = some next → ∀ name, next.Starts g name → _ :=
      hg.started_of_excluded? fun name h => hs name h.head
    have hnext := fun hexcluded => Rule.check_mirrors htame next hg hdnext (hsnext hexcluded)
    have hspecnext := fun hexcluded =>
      Rule.run_computes htame next hg.toRefines (hsnext hexcluded)
    have he := Rule.emptyAlike htame.alike next
    dsimp only
    rw [Rule.checkAll, Rule.runAll]
    refine (checkUnterminated_mirrors hd.1 he hnext hspecnext hw hn).bind
      (unterminated_answers he hspecnext hw hn) fun given_up _ => ?_
    cases given_up with
    | true => exact Mirrors.pure _
    | false =>
      refine (hitem w hw hn).bind_computes (hspec w hw hn) ?_
      cases hm : Rule.matches? spec item w with
      | none => exact Mirrors.pure _
      | some m =>
        obtain ⟨k, started', hg', hs', hk⟩ := hg.after htame hs hn hm
        have hover := hw.drop (Rule.fitsWindow htame.fits item w m hm)
        exact (Rule.checkAll_mirrors htame (next :: rest) hg' hd.2 hs' _ hover hk).bind_computes
          (Rule.runAll_computes htame (next :: rest) hg'.toRefines hs' _ hover hk) (Mirrors.pure _)

/-- Trying alternatives stops with no fault. -/
theorem Rule.checkFirst_mirrors (htame : g.Tame spec) : ∀ (alternatives : List Rule) {n : Nat}
    {started : String → Prop}, Guards input g n started checkedCall call spec →
      (∀ name ∈ Rule.referencesOf alternatives, g.defines name = true) →
      (∀ a ∈ alternatives, ∀ name, a.Starts g name → started name) →
        MirrorsUpTo (Rule.matches? spec) input n
          (fun w => Rule.checkFirst g checkedCall alternatives w)
          fun w => Rule.runFirst g call alternatives w
  | [], n, _, _, _, _ => fun _ _ _ => Mirrors.pure _
  | alternative :: rest, n, _, hg, hd, hs => by
    intro w hw hn
    rw [Rule.referencesOf, List.forall_mem_append] at hd
    have hfirst := Rule.check_mirrors htame alternative hg hd.1 (hs alternative (by simp))
    have hspec := Rule.run_computes htame alternative hg.toRefines (hs alternative (by simp))
    have hrest := Rule.checkFirst_mirrors htame rest hg hd.2 fun a h => hs a (by simp [h])
    dsimp only
    rw [Rule.checkFirst, Rule.runFirst]
    refine (hfirst w hw hn).bind_computes (hspec w hw hn) ?_
    cases Rule.matches? spec alternative w with
    | none => exact hrest w hw hn
    | some m => exact Mirrors.pure _

end

end

/-! ## Grammars without left recursion -/

variable {g : Grammar} {input : IndexedText}

/-- With a depth that is enough, the body of a named rule is matched without a fault. The induction
is on the depth: the rule calls others in smaller windows, or of smaller rank in the same one. -/
theorem checkBody_mirrors (hg : g.LeftRecursionFree) (hclosed : g.Closed) {depth : Nat}
    {name : String} {w : Window} (hw : w.Over input) (hname : g.defines name = true)
    (hdepth : g.leftDepth name w ≤ depth) :
    Mirrors (Rule.matches? g.body?) input (g.checkBody depth name w) (g.runBody depth name w) := by
  induction depth generalizing name w with
  | zero => simp [leftDepth] at hdepth
  | succ depth ih =>
    obtain ⟨body, hbody⟩ := Option.isSome_iff_exists.1 hname
    have hguards : Guards input g w.size (fun callee => g.leftRank callee < g.leftRank name)
        (g.checkBody depth) (g.runBody depth) g.body? := by
      refine ⟨⟨?_, ?_, ?_⟩, ?_, ?_⟩
      · intro callee k hk v hv hsize
        exact runBody_computes hg hv (leftDepth_le_of_size_lt hdepth (by omega))
      · intro callee hcallee v hv hsize
        exact runBody_computes hg hv (leftDepth_le_of_rank_lt hdepth hsize hcallee)
      · exact fun caller callee hcaller hcall => (leftRank_lt hg hcall).trans hcaller
      · intro callee k hk hcallee v hv hsize
        exact ih hv hcallee (leftDepth_le_of_size_lt hdepth (by omega))
      · intro callee hrank hcallee v hv hsize
        exact ih hv hcallee (leftDepth_le_of_rank_lt hdepth hsize hrank)
    simp only [checkBody, runBody, hbody]
    exact Rule.check_mirrors (tame_body? g) body hguards (hclosed.of_rule? hbody)
      (fun callee h => leftRank_lt hg ⟨body, hbody, h⟩) w hw (Nat.le_refl _)

/-- **A grammar that is accepted can always be matched.** Without left recursion, a rule of it is
matched without a fault at every window, whatever earlier matches in the same text have left in the
memo: neither the depth to which references are followed nor the fuel of a repetition is used up, no
reference is undefined, and no difference has a number of operands other than two. The match is the
one that `matchWith` makes. -/
theorem checkWith_eq_matchWith {definitions : List (String × Rule)} {g : Grammar}
    (h : ofDefinitions definitions = .ok g) (hg : g.LeftRecursionFree) {start : String}
    (hstart : g.defines start = true) :
    (∀ (w : Window) (memo : SearchMemo), memo.Reachable g w.input →
      (g.checkWith start w).run memo = .ok ((g.matchWith start w).run memo)) ∧
    ∀ input : String, ∃ result memo,
      (g.checkWith start (.whole input.toList)).run {} = .ok (result, memo) ∧
        g.tokenize start input = .ok result := by
  have hclosed := closed_of_ofDefinitions h
  have hcheck : ∀ (w : Window) (memo : SearchMemo), memo.Reachable g w.input →
      (g.checkWith start w).run memo = .ok ((g.matchWith start w).run memo) := by
    intro w memo hmemo
    have hdepth := leftDepth_le (g := g) start w
    have hbody := checkBody_mirrors hg hclosed (.inl rfl) hstart hdepth
    have hmirrors : Mirrors (Rule.matches? g.body?) w.input (g.checkWith start w)
        (g.matchWith start w) :=
      hbody.bind_computes (runBody_computes hg (.inl rfl) hdepth) (Mirrors.pure _)
    exact hmirrors memo (hmemo.sound hg)
  refine ⟨hcheck, fun input => ⟨_, _, hcheck (.whole input.toList) {} .fresh, ?_⟩⟩
  rw [tokenize, if_pos hstart]
  rfl

/-- Of the searches for the closer, one is answered by an earlier one. -/
theorem checkWith_eq_matchWith_comment :
    let w := Window.whole ['(', '*', '(', '*', 'a', '*', ')']
    let memo := ((commentGrammar.matchWith "comment" (w.drop 2)).run {}).2
    ofDefinitions commentGrammar.rules = .ok commentGrammar ∧ commentGrammar.LeftRecursionFree ∧
      commentGrammar.defines "comment" = true ∧ memo.Reachable commentGrammar w.input ∧
      (commentGrammar.checkWith "comment" w).run memo =
        .ok ((commentGrammar.matchWith "comment" w).run memo) ∧
      ∃ result memo, (commentGrammar.checkWith "comment" (.whole "(*(*a*)".toList)).run {} =
        .ok (result, memo) ∧ commentGrammar.tokenize "comment" "(*(*a*)" = .ok result := by
  intro w memo
  have haccepted : ofDefinitions commentGrammar.rules = .ok commentGrammar := rfl
  have hfree : commentGrammar.LeftRecursionFree :=
    leftRecursionFree_of_ranked ["body"] ["_char", "body", "comment"] (by decide) (by decide)
  have hmemo : memo.Reachable commentGrammar w.input := .matched "comment" (w.drop 2) rfl .fresh
  have hstart : commentGrammar.defines "comment" = true := by decide
  obtain ⟨hcheck, htokenize⟩ := checkWith_eq_matchWith haccepted hfree hstart
  exact ⟨haccepted, hfree, hstart, hmemo, hcheck w memo hmemo, htokenize _⟩

/-- A reference to a rule that is missing is a fault, and so is a rule that starts with itself. -/
example :
    ((⟨[("a", .reference .one "b")]⟩ : Grammar).checkWith "a" (.whole ['x'])).run {} =
      .error (.undefined "b") ∧
    ((⟨[("a", .reference .one "a")]⟩ : Grammar).checkWith "a" (.whole ['x'])).run {} =
      .error .depth :=
  ⟨rfl, rfl⟩

end MarkupFilter.Grammar
