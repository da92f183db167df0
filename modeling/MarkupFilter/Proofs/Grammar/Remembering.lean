import MarkupFilter.Grammar.Matching
import MarkupFilter.Proofs.Grammar.PlainMatches

/-!
# Remembered searches do not change matches

`Rule.run` keeps a memo of searches and gives up early where a search has failed. With a memo in
which every entry is true, it finds what the plain `Rule.matches?` finds, and all entries of the
memo it leaves are true again. So it is for a whole grammar without left recursion, whatever has
been matched before in the same text.

## Main definitions

* `FirstPlace` — what a search for a match has to answer.
* `SearchMemo.Sound` — every entry of a memo answers its search.
* `Computes` — a remembering computation has a given result, whatever sound memo it starts with.
* `SearchMemo.Reachable` — the memos that earlier matches leave.

## Main results

* `Rule.run_computes` — matching with a memo is plain matching.
* `matchWith_computes` — so it is for the rules of a grammar without left recursion.
* `matchWith_eq_matches?` — the match does not depend on what has been matched before.
-/

set_option autoImplicit false

namespace MarkupFilter.Grammar

/-! ## Searches -/

/-- The window with another start and the same limit. -/
def Window.startAt (w : Window) (place : Nat) : Window :=
  { w with place := place }

theorem Window.drop_eq_startAt (w : Window) (n : Nat) : w.drop n = w.startAt (w.place + n) := rfl

/-- What a search from the start of `w` for a match of `once` has to answer: the first place with a
match, if there is one before the limit. A match of nothing at the limit may be reported too. -/
def FirstPlace (once : Window → Option Match) (w : Window) : Option Nat → Prop
  | none => ∀ p, w.place ≤ p → p < w.limit → once (w.startAt p) = none
  | some q => (w.place ≤ q ∧ q ≤ max w.place w.limit ∧ (once (w.startAt q)).isSome) ∧
      ∀ p, w.place ≤ p → p < q → once (w.startAt p) = none

/-- A search that begins later, but not after the place found, finds the same place. -/
theorem FirstPlace.startAt {once : Window → Option Match} {w : Window} {found : Option Nat}
    (h : FirstPlace once w found) {place : Nat} (hle : w.place ≤ place)
    (hfound : ∀ q ∈ found, place ≤ q) : FirstPlace once (w.startAt place) found := by
  cases found with
  | none => exact fun p hp hlt => h p (Nat.le_trans hle hp) hlt
  | some q =>
    obtain ⟨⟨_, hq, hs⟩, hbefore⟩ := h
    have hbound : q ≤ max place w.limit := by omega
    exact ⟨⟨hfound q rfl, hbound, hs⟩, fun p hp hlt => hbefore p (Nat.le_trans hle hp) hlt⟩

/-- The plain search gives every right answer that lies before the limit. -/
theorem FirstPlace.nearestMatch_eq {once : Window → Option Match} {w : Window}
    {found : Option Nat} (h : FirstPlace once w found) :
    nearestMatch once w = found.filter fun q => decide (q < w.limit) := by
  -- the first number below the size of the window at which `once` matches
  have none_of : (∀ p, w.place ≤ p → p < w.limit → once (w.startAt p) = none) →
      nearestMatch once w = none := by
    intro hnone
    rw [nearestMatch, Option.map_eq_none_iff, List.find?_eq_none]
    intro n hn
    have hlt : w.place + n < w.limit := by
      have := List.mem_range.1 hn
      simp only [Window.size] at this
      omega
    rw [Window.drop_eq_startAt, hnone _ (by omega) hlt]
    simp
  cases found with
  | none => exact none_of h
  | some q =>
    obtain ⟨⟨hle, hq, hs⟩, hbefore⟩ := h
    by_cases hlt : q < w.limit
    · have hfind : (List.range w.size).find? (fun n => (once (w.drop n)).isSome) =
          some (q - w.place) := by
        rw [List.find?_range_eq_some]
        refine ⟨?_, ?_, fun n hn => ?_⟩
        · rwa [Window.drop_eq_startAt, Nat.add_sub_cancel' hle]
        · simp only [Window.size, List.mem_range]
          omega
        · rw [Window.drop_eq_startAt, hbefore _ (by omega) (by omega)]
          rfl
      rw [nearestMatch, hfind, Option.filter_some_pos (by simpa using hlt), Option.map_some,
        Nat.add_sub_cancel' hle]
    · rw [none_of fun p hp hpl => hbefore p hp (by omega),
        Option.filter_some_neg (by simpa using hlt)]

/-! ## Sound memos -/

section

variable (meaning : Rule → Window → Option Match) (input : IndexedText)

/-- Every entry of a memo is true of the text `input`, where `meaning` says what rules match. -/
def SearchMemo.Sound (memo : SearchMemo) : Prop :=
  ∀ e ∈ memo.entries, ∀ h : e.limit ≤ input.size,
    FirstPlace (meaning e.rule) ⟨input, e.place, e.limit, h⟩ e.found

/-- The windows that matching looks at: those of `input`, and the empty window. -/
def Window.Over (w : Window) : Prop :=
  w.input = input ∨ (w.place = 0 ∧ w.limit = 0)

/-- The computation has a result that satisfies `post`, whatever sound memo it starts with, and
leaves a sound memo. -/
def Answers {α : Type} (x : Remembering α) (post : α → Prop) : Prop :=
  ∀ memo : SearchMemo, memo.Sound meaning input →
    post (x.run memo).1 ∧ (x.run memo).2.Sound meaning input

/-- The computation has the result `a`, whatever sound memo it starts with. -/
def Computes {α : Type} (x : Remembering α) (a : α) : Prop :=
  Answers meaning input x (· = a)

end

variable {meaning : Rule → Window → Option Match} {input : IndexedText} {α β : Type}

theorem Answers.pure {post : α → Prop} {a : α} (h : post a) :
    Answers meaning input (Pure.pure a) post :=
  fun _ hm => ⟨h, hm⟩

theorem Answers.bind {x : Remembering α} {k : α → Remembering β} {post : α → Prop}
    {post' : β → Prop} (hx : Answers meaning input x post)
    (hk : ∀ a, post a → Answers meaning input (k a) post') :
    Answers meaning input (x >>= k) post' := by
  intro memo hm
  obtain ⟨ha, hm'⟩ := hx memo hm
  exact hk _ ha _ hm'

theorem Computes.pure (a : α) : Computes meaning input (Pure.pure a) a :=
  Answers.pure rfl

/-- One computation after the other. -/
theorem Computes.bind {x : Remembering α} {k : α → Remembering β} {a : α} {b : β}
    (hx : Computes meaning input x a) (hk : Computes meaning input (k a) b) :
    Computes meaning input (x >>= k) b :=
  Answers.bind hx fun _ ha => ha ▸ hk

/-! ### Windows under consideration -/

namespace Window.Over

variable {w : Window}

theorem drop (h : w.Over input) {n : Nat} (hn : n ≤ w.size) : (w.drop n).Over input := by
  refine h.imp id fun ⟨hplace, hlimit⟩ => ⟨?_, hlimit⟩
  simp only [Window.size] at hn
  simp only [place_drop]
  omega

theorem upTo (h : w.Over input) (place : Nat) : (w.upTo place).Over input :=
  h.imp id fun ⟨hplace, hlimit⟩ => ⟨hplace, by simp [Window.upTo, hlimit]⟩

theorem nothing : Window.nothing.Over input :=
  .inr ⟨rfl, rfl⟩

end Window.Over

/-! ## Repetition -/

/-- The computation matches as `spec` does, at every window over the text of at most `n`
characters. -/
def Follows (meaning : Rule → Window → Option Match) (input : IndexedText) (n : Nat)
    (once : Window → Remembering (Option Match)) (spec : Window → Option Match) : Prop :=
  ∀ w : Window, w.Over input → w.size ≤ n → Computes meaning input (once w) (spec w)

theorem runRepeated_computes {once : Window → Remembering (Option Match)}
    {spec : Window → Option Match} {n : Nat} (h : Follows meaning input n once spec)
    (hfit : FitsWindow spec) (fuel count length : Nat) (tokens : List Token) {w : Window}
    (hw : w.Over input) (hn : w.size ≤ n) :
    Computes meaning input (runRepeated once fuel count length tokens w)
      (count + (repeated spec fuel w).count,
        ⟨length + (repeated spec fuel w).found.length,
          tokens.reverse ++ (repeated spec fuel w).found.tokens⟩) := by
  induction fuel generalizing count length tokens w with
  | zero =>
    simp only [runRepeated, repeated, Match.empty, List.append_nil, Nat.add_zero]
    exact Computes.pure _
  | succ fuel ih =>
    rw [runRepeated, repeated]
    refine Computes.bind (h w hw hn) ?_
    cases hm : spec w with
    | none =>
      simp only [Match.empty, List.append_nil, Nat.add_zero]
      exact Computes.pure _
    | some m =>
      simp only
      split
      · next h0 =>
        simp only [h0, Nat.add_zero, List.reverse_append, List.reverse_reverse]
        exact Computes.pure _
      · have := ih (count + 1) (length + m.length) (m.tokens.reverse ++ tokens)
          (hw.drop (hfit w m hm)) (by rw [Window.size_drop]; omega)
        simpa [Match.append, Nat.add_assoc, Nat.add_comm 1] using this

namespace Quantifier

theorem run_computes (q : Quantifier) {once : Window → Remembering (Option Match)}
    {spec : Window → Option Match} {n : Nat} (h : Follows meaning input n once spec)
    (hfit : FitsWindow spec) : Follows meaning input n (q.run once) (q.matches? spec) := by
  intro w hw hn
  cases q with
  | one => exact h w hw hn
  | optional => exact Computes.bind (h w hw hn) (Computes.pure _)
  | zeroOrMore =>
    refine Computes.bind (runRepeated_computes h hfit _ _ _ _ hw hn) ?_
    simp only [matches?, Nat.zero_add, List.reverse_nil, List.nil_append]
    exact Computes.pure _
  | oneOrMore =>
    refine Computes.bind (runRepeated_computes h hfit _ _ _ _ hw hn) ?_
    simp only [matches?, Nat.zero_add, List.reverse_nil, List.nil_append]
    exact Computes.pure _

end Quantifier

/-! ## Searching with a memo -/

theorem Window.size_eq_zero_of_limit {w : Window} (h : w.limit = 0) : w.size = 0 := by
  simp [Window.size, h]

/-- Of windows whose limit is zero, only the place matters to a search. -/
theorem FirstPlace.of_limit_zero {once : Window → Option Match} (he : EmptyAlike once)
    {v w : Window} {found : Option Nat} (h : FirstPlace once v found) (hv : v.limit = 0)
    (hw : w.limit = 0) (hp : v.place = w.place) : FirstPlace once w found := by
  cases found with
  | none => exact fun p _ hlt => absurd hlt (by omega)
  | some q =>
    obtain ⟨⟨hle, hq, hs⟩, _⟩ := h
    refine ⟨⟨by omega, by omega, ?_⟩, fun p _ hlt => absurd hlt (by omega)⟩
    exact (he (v.startAt q) (w.startAt q) (Window.size_eq_zero_of_limit hv)
      (Window.size_eq_zero_of_limit hw)).1 hs

theorem SearchMemo.mem_of_entry? {memo : SearchMemo} {rule : Rule} {limit : Nat} {e : SearchEntry}
    (h : memo.entry? rule limit = some e) :
    e ∈ memo.entries ∧ e.limit = limit ∧ e.rule = rule := by
  have hs := List.find?_some h
  simp only [Bool.and_eq_true, beq_iff_eq] at hs
  exact ⟨List.mem_of_find?_eq_some h, hs.1, Rule.eq_of_same _ _ hs.2⟩

/-- What is remembered in a sound memo is true. -/
theorem SearchMemo.Sound.find? {memo : SearchMemo} (hm : memo.Sound meaning input) {rule : Rule}
    (he : EmptyAlike (meaning rule)) {w : Window} (hw : w.Over input) {found : Option Nat}
    (h : memo.find? rule w = some found) : FirstPlace (meaning rule) w found := by
  unfold SearchMemo.find? at h
  cases hentry : memo.entry? rule w.limit with
  | none => simp [hentry] at h
  | some e =>
    obtain ⟨hmem, hlim, rfl⟩ := SearchMemo.mem_of_entry? hentry
    simp only [hentry] at h
    split at h
    · next hle =>
      obtain ⟨rfl, hfound⟩ : found = e.found ∧ ∀ q ∈ e.found, w.place ≤ q := by
        cases hf : e.found with
        | none =>
          simp only [hf, Option.some.injEq] at h
          exact ⟨h.symm, fun q hq => by cases hq⟩
        | some q =>
          simp only [hf] at h
          split at h
          · next hq =>
            cases h
            exact ⟨rfl, fun q' hq' => by cases hq'; exact hq⟩
          · cases h
      rcases hw with rfl | ⟨hplace, hlimit⟩
      · have hentry := hm e hmem (hlim ▸ w.limit_le)
        simpa [Window.startAt, hlim] using hentry.startAt hle hfound
      · have hentry := hm e hmem (by omega)
        exact hentry.of_limit_zero he (hlim.trans hlimit) hlimit (show e.place = w.place by omega)
    · cases h

/-- A true answer may be remembered. -/
theorem SearchMemo.Sound.record {memo : SearchMemo} (hm : memo.Sound meaning input) {rule : Rule}
    (he : EmptyAlike (meaning rule)) {w : Window} (hw : w.Over input) {found : Option Nat}
    (h : FirstPlace (meaning rule) w found) : (memo.record rule w found).Sound meaning input := by
  intro e hmem hle
  rcases List.mem_cons.1 hmem with rfl | hold
  · rcases hw with rfl | ⟨-, hlimit⟩
    · exact h
    · exact h.of_limit_zero he hlimit hlimit rfl
  · exact hm e ((List.mem_filter.1 hold).1) hle

/-- Once the first place of a window is ruled out, the search goes on behind it. -/
theorem FirstPlace.of_drop_one {once : Window → Option Match} {w : Window}
    (hlt : w.place < w.limit) (h0 : once w = none) {found : Option Nat} (h : FirstPlace once (w.drop 1) found) :
    FirstPlace once w found := by
  have hfirst : ∀ p, w.place ≤ p → ¬ w.place + 1 ≤ p → once (w.startAt p) = none := by
    intro p hp hp'
    obtain rfl : p = w.place := by omega
    exact h0
  cases found with
  | none =>
    intro p hp hpl
    by_cases hp' : w.place + 1 ≤ p
    · exact h p hp' hpl
    · exact hfirst p hp hp'
  | some q =>
    obtain ⟨⟨hle, hq, hs⟩, hbefore⟩ := h
    simp only [Window.place_drop, Window.limit_drop] at hle hq
    refine ⟨⟨by omega, by omega, hs⟩, fun p hp hpq => ?_⟩
    by_cases hp' : w.place + 1 ≤ p
    · exact hbefore p hp' hpq
    · exact hfirst p hp hp'

/-- A literal is searched for as a text. -/
theorem literalPlace?_firstPlace (text : List Char) (w : Window) :
    FirstPlace (·.literal? text) w (literalPlace? w.input text w.size w.place) := by
  obtain ⟨size, hsize⟩ : ∃ size, w.size = size := ⟨_, rfl⟩
  rw [hsize]
  induction size generalizing w with
  | zero =>
    rw [literalPlace?]
    split
    · next hempty =>
      rw [List.isEmpty_iff] at hempty
      subst hempty
      refine ⟨⟨Nat.le_refl _, Nat.le_max_left _ _, ?_⟩, fun p hp hlt => absurd hlt (by omega)⟩
      simp [Window.literal?, IndexedText.hasAt]
    · refine fun p hp hlt => absurd hlt ?_
      simp only [Window.size] at hsize
      omega
  | succ size ih =>
    have hlt : w.place < w.limit := by
      simp only [Window.size] at hsize
      omega
    rw [literalPlace?]
    split
    · next hat =>
      refine ⟨⟨Nat.le_refl _, Nat.le_max_left _ _, ?_⟩, fun p hp hlt => absurd hlt (by omega)⟩
      show (w.literal? text).isSome = true
      rw [Window.literal?, hsize, if_pos hat]
      rfl
    · next hat =>
      refine FirstPlace.of_drop_one hlt ?_ (ih (w.drop 1) ?_)
      · rw [Window.literal?, hsize, if_neg hat]
      · rw [Window.size_drop]
        omega

theorem scanFrom_answers {once : Window → Remembering (Option Match)}
    {spec : Window → Option Match} {n : Nat} (h : Follows meaning input n once spec) {size : Nat}
    {w : Window} (hw : w.Over input) (hn : w.size ≤ n) (hsize : w.size = size) :
    Answers meaning input (scanFrom once size w) (FirstPlace spec w) := by
  induction size generalizing w with
  | zero =>
    refine Answers.pure fun p hp hlt => absurd hlt ?_
    simp only [Window.size] at hsize
    omega
  | succ size ih =>
    have hlt : w.place < w.limit := by
      simp only [Window.size] at hsize
      omega
    rw [scanFrom]
    refine Answers.bind (h w hw hn) fun m? hm => ?_
    subst hm
    cases hm : spec w with
    | none =>
      intro memo hmemo
      have hrest := ih (hw.drop (n := 1) (by omega)) (by rw [Window.size_drop]; omega)
        (by rw [Window.size_drop]; omega)
      exact ⟨FirstPlace.of_drop_one hlt hm (hrest memo hmemo).1, (hrest memo hmemo).2⟩
    | some m =>
      refine Answers.pure ⟨⟨Nat.le_refl _, Nat.le_max_left _ _, ?_⟩,
        fun p hp hp' => absurd hp' (by omega)⟩
      show (spec w).isSome = true
      rw [hm]
      rfl

theorem nearest_run_of_some {memo : SearchMemo} {rule : Rule} {w : Window} {found : Option Nat}
    (h : memo.find? rule w = some found) (once : Window → Remembering (Option Match)) :
    (nearest rule once w).run memo = (found, memo) := by
  rw [nearest, StateT.run_bind, StateT.run_get]
  simp only [pure_bind, h]
  rfl

theorem nearest_run_of_none {memo : SearchMemo} {rule : Rule} {w : Window}
    (h : memo.find? rule w = none) (once : Window → Remembering (Option Match)) :
    (nearest rule once w).run memo =
      (((scan rule once w).run memo).1,
        ((scan rule once w).run memo).2.record rule w ((scan rule once w).run memo).1) := by
  rw [nearest, StateT.run_bind, StateT.run_get]
  simp only [pure_bind, h]
  rfl

/-! ## Matching with a memo -/

section

variable {g : Grammar} {call : String → Window → Remembering (Option Match)}
  {spec : String → Window → Option Match} {n : Nat} {started : String → Prop}

/-- A search finds the first place where the rule matches, remembered or not. -/
theorem nearest_answers {rule : Rule} (he : EmptyAlike (Rule.matches? spec rule))
    {once : Window → Remembering (Option Match)}
    (h : Follows (Rule.matches? spec) input n once (Rule.matches? spec rule)) {w : Window}
    (hw : w.Over input) (hn : w.size ≤ n) :
    Answers (Rule.matches? spec) input (nearest rule once w)
      (FirstPlace (Rule.matches? spec rule) w) := by
  have hscan : Answers (Rule.matches? spec) input (scan rule once w)
      (FirstPlace (Rule.matches? spec rule) w) := by
    unfold scan
    split
    · next text =>
      refine Answers.pure ?_
      have : Rule.matches? spec (.literal .one text) = (·.literal? text) := by
        funext w
        rw [Rule.matches?, Quantifier.matches?]
      exact this ▸ literalPlace?_firstPlace text w
    · exact scanFrom_answers h hw hn rfl
  intro memo hmemo
  cases hfind : memo.find? rule w with
  | some found =>
    rw [nearest_run_of_some hfind]
    exact ⟨hmemo.find? he hw hfind, hmemo⟩
  | none =>
    obtain ⟨hfound, hmemo'⟩ := hscan memo hmemo
    rw [nearest_run_of_none hfind]
    exact ⟨hfound, hmemo'.record he hw hfound⟩

/-- A sequence is given up only where its next item matches nowhere in the window. -/
theorem unterminated_answers {item next : Rule} (he : EmptyAlike (Rule.matches? spec next))
    {once : Window → Remembering (Option Match)} (h : g.excluded? item = some next →
      Follows (Rule.matches? spec) input n once (Rule.matches? spec next)) {w : Window}
    (hw : w.Over input) (hn : w.size ≤ n) :
    Answers (Rule.matches? spec) input (unterminated g item next once w) fun given_up =>
      given_up = true → ∀ k ≤ w.size, Rule.matches? spec next (w.drop k) = none := by
  unfold unterminated
  split
  · exact Answers.pure (by simp)
  · next right hright =>
    split
    · next hsame =>
      obtain rfl := Rule.eq_of_same _ _ hsame
      refine Answers.bind (nearest_answers he (h hright) hw hn) fun found hfound => ?_
      cases found with
      | some q => exact Answers.pure (by simp)
      | none =>
        refine Answers.bind (h hright _ Window.Over.nothing (Nat.zero_le n)) fun m? hm =>
          Answers.pure ?_
        intro hnone k hk
        have hempty : Rule.matches? spec right Window.nothing = none := by
          simpa [hm] using hnone
        rw [Window.drop_eq_startAt]
        by_cases hlt : w.place + k < w.limit
        · exact hfound _ (by omega) hlt
        · have hsize : (w.startAt (w.place + k)).size = 0 := by
            simp only [Window.size, Window.startAt]
            omega
          have := he (w.startAt (w.place + k)) Window.nothing hsize rfl
          rw [hempty] at this
          simpa using this
    · exact Answers.pure (by simp)

/-- Named rules match as `spec` says on all windows of less than `n` characters, and those in
`started` on windows of `n` characters too. -/
structure Refines (input : IndexedText) (g : Grammar) (n : Nat) (started : String → Prop)
    (call : String → Window → Remembering (Option Match))
    (spec : String → Window → Option Match) : Prop where
  smaller : ∀ name k, k < n → Follows (Rule.matches? spec) input k (call name) (spec name)
  here : ∀ name, started name → Follows (Rule.matches? spec) input n (call name) (spec name)
  closed : ∀ caller callee, started caller → g.LeftCalls caller callee → started callee

theorem Refines.below (hr : Refines input g n started call spec) {k : Nat} (hk : k < n) :
    Refines input g k (fun _ => True) call spec :=
  ⟨fun name _ hj => hr.smaller name _ (hj.trans hk), fun name _ => hr.smaller name k hk,
    fun _ _ _ _ => trivial⟩

/-- What is left out by an item is looked at where the item starts. -/
theorem Refines.started_of_excluded? (hr : Refines input g n started call spec)
    {item right : Rule} (hs : ∀ name, item.Starts g name → started name)
    (h : g.excluded? item = some right) : ∀ name, right.Starts g name → started name := by
  have hright : ∀ {rule : Rule}, rule.subtrahend? = some right →
      ∀ name, right.Starts g name → rule.Starts g name := by
    intro rule hrule name hname
    cases rule with
    | difference q left r =>
      cases hrule
      exact .right hname
    | _ => cases hrule
  intro name hname
  unfold excluded? at h
  split at h
  · next q caller =>
    obtain ⟨body, hbody, hsub⟩ := Option.bind_eq_some_iff.1 h
    exact hr.closed caller name (hs caller .reference) ⟨body, hbody, hright hsub name hname⟩
  · exact hs name (hright h name hname)

theorem Match.append_empty (m : Match) : m.append .empty = m := by
  simp [Match.append, Match.empty]

theorem Rule.matchesAll?_singleton (item : Rule) (w : Window) :
    Rule.matchesAll? spec [item] w = Rule.matches? spec item w := by
  rw [Rule.matchesAll?]
  cases Rule.matches? spec item w with
  | none => rfl
  | some m => simp [Rule.matchesAll?, Match.append_empty]

mutual

/-- **Matching with a memo is plain matching.**

The induction is on the rule. Repetitions are `Quantifier.run_computes`; a difference asks for the
nearest match of its right operand, which a sound memo answers truly (`nearest_answers`); and a
sequence is given up early only if its next item can match nowhere (`unterminated_answers`). Only
the names that the rule starts with are called on the whole window. -/
theorem Rule.run_computes (htame : g.Tame spec) : ∀ (rule : Rule) {n : Nat}
    {started : String → Prop}, Refines input g n started call spec →
      (∀ name, rule.Starts g name → started name) →
        Follows (Rule.matches? spec) input n (Rule.run g call rule) (Rule.matches? spec rule)
  | .literal q text, n, _, _, _ => by
    intro w hw hn
    rw [Rule.run, Rule.matches?]
    exact q.run_computes (fun _ _ _ => Computes.pure _) (Window.fitsWindow_literal? text) w hw hn
  | .charSet q set, n, _, _, _ => by
    intro w hw hn
    rw [Rule.run, Rule.matches?]
    exact q.run_computes (fun _ _ _ => Computes.pure _) (Window.fitsWindow_char? _) w hw hn
  | .charCode q code, n, _, _, _ => by
    intro w hw hn
    rw [Rule.run, Rule.matches?]
    exact q.run_computes (fun _ _ _ => Computes.pure _) (Window.fitsWindow_char? _) w hw hn
  | .sequence q items, n, _, hr, hs => by
    intro w hw hn
    rw [Rule.run, Rule.matches?]
    exact q.run_computes (Rule.runAll_computes htame items hr fun name h => hs name (h.requantify q))
      (Rule.fitsWindow_all htame.fits items) w hw hn
  | .choice q alternatives, n, _, hr, hs => by
    intro w hw hn
    rw [Rule.run, Rule.matches?]
    exact q.run_computes
      (Rule.runFirst_computes htame alternatives hr fun a hmem name h => hs name (.choice hmem h))
      (Rule.fitsWindow_first htame.fits alternatives) w hw hn
  | .difference q left right, n, _, hr, hs => by
    intro w hw hn
    have hleft := Rule.run_computes htame left hr fun name h => hs name (.left h)
    have hright := Rule.run_computes htame right hr fun name h => hs name (.right h)
    have hfit := Rule.fitsWindow htame.fits (.difference .one left right)
    rw [Rule.run, Rule.matches?]
    refine q.run_computes (fun w hw hn => ?_) (fun w m h => hfit w m ?_) w hw hn
    · refine Answers.bind (nearest_answers (Rule.emptyAlike htame.alike right) hright hw hn)
        fun found hfound => ?_
      rw [hfound.nearestMatch_eq]
      cases found with
      | none => exact hleft w hw hn
      | some q =>
        by_cases hlt : q < w.limit
        · rw [Option.filter_some_pos (by simpa using hlt)]
          exact hleft _ (hw.upTo q) ((w.size_upTo_le q).trans hn)
        · have hupTo : w.upTo q = w := by
            simp [Window.upTo, Nat.min_eq_right (Nat.not_lt.1 hlt)]
          rw [Option.filter_some_neg (by simpa using hlt)]
          simp only [hupTo]
          exact hleft w hw hn
    · rw [Rule.matches?, Quantifier.matches?]
      exact h
  | .reference q name, n, _, hr, hs => by
    intro w hw hn
    have hfit := Rule.fitsWindow htame.fits (.reference .one name)
    rw [Rule.run, Rule.matches?]
    refine q.run_computes (fun w hw hn => ?_) (fun w m h => hfit w m ?_) w hw hn
    · exact Computes.bind (hr.here name (hs name .reference) w hw hn) (Computes.pure _)
    · rw [Rule.matches?, Quantifier.matches?]
      exact h

/-- Matching items one after the other with a memo is plain matching. What follows an item that
has read something is matched in a smaller window. -/
theorem Rule.runAll_computes (htame : g.Tame spec) : ∀ (items : List Rule) {n : Nat}
    {started : String → Prop}, Refines input g n started call spec →
      (∀ name, Rule.Starts g (.sequence .one items) name → started name) →
        Follows (Rule.matches? spec) input n (fun w => Rule.runAll g call items w)
          fun w => Rule.matchesAll? spec items w
  | [], n, _, _, _ => by
    intro w _ _
    dsimp only
    rw [Rule.runAll, Rule.matchesAll?]
    exact Computes.pure _
  | [item], n, _, hr, hs => by
    intro w hw hn
    have hitem := Rule.run_computes htame item hr (fun name h => hs name h.head) w hw hn
    dsimp only
    rw [Rule.runAll, Rule.matchesAll?_singleton]
    exact hitem
  | item :: next :: rest, n, _, hr, hs => by
    intro w hw hn
    have hitem := Rule.run_computes htame item hr (fun name h => hs name h.head) w hw hn
    have hnext : g.excluded? item = some next → Follows (Rule.matches? spec) input n
        (fun w => Rule.run g call next w) (Rule.matches? spec next) := fun hexcluded =>
      Rule.run_computes htame next hr
        (hr.started_of_excluded? (fun name h => hs name h.head) hexcluded)
    have hrest : ∀ m, Rule.matches? spec item w = some m → Computes (Rule.matches? spec) input
        (Rule.runAll g call (next :: rest) (w.drop m.length))
        (Rule.matchesAll? spec (next :: rest) (w.drop m.length)) := by
      intro m hm
      have hfit := Rule.fitsWindow htame.fits item w m hm
      by_cases h0 : m.length = 0
      · have hnull := Rule.nullable_of_matches? htame.nullable item hm h0
        exact Rule.runAll_computes htame (next :: rest) hr (fun name h => hs name (h.tail hnull)) _
          (hw.drop hfit) (by rw [Window.size_drop]; omega)
      · exact Rule.runAll_computes htame (next :: rest) (hr.below (k := (w.drop m.length).size)
          (by rw [Window.size_drop]; omega)) (fun _ _ => trivial) _ (hw.drop hfit) (Nat.le_refl _)
    dsimp only
    rw [Rule.runAll]
    refine Answers.bind (unterminated_answers (Rule.emptyAlike htame.alike next) hnext hw hn)
      fun given_up hgiven => ?_
    cases given_up with
    | true =>
      refine Answers.pure ?_
      rw [Rule.matchesAll?]
      cases hm : Rule.matches? spec item w with
      | none => rfl
      | some m =>
        have hnone := hgiven rfl m.length (Rule.fitsWindow htame.fits item w m hm)
        simp only [Rule.matchesAll?, hnone, Option.map_none]
    | false =>
      refine Computes.bind hitem ?_
      rw [Rule.matchesAll?]
      cases hm : Rule.matches? spec item w with
      | none => exact Computes.pure _
      | some m => exact Computes.bind (hrest m hm) (Computes.pure _)

/-- Trying alternatives with a memo is plain matching. -/
theorem Rule.runFirst_computes (htame : g.Tame spec) : ∀ (alternatives : List Rule) {n : Nat}
    {started : String → Prop}, Refines input g n started call spec →
      (∀ a ∈ alternatives, ∀ name, a.Starts g name → started name) →
        Follows (Rule.matches? spec) input n (fun w => Rule.runFirst g call alternatives w)
          fun w => Rule.matchesFirst? spec alternatives w
  | [], n, _, _, _ => by
    intro w _ _
    dsimp only
    rw [Rule.runFirst, Rule.matchesFirst?]
    exact Computes.pure _
  | alternative :: rest, n, _, hr, hs => by
    intro w hw hn
    have hfirst := Rule.run_computes htame alternative hr (hs alternative (by simp)) w hw hn
    have hrest := Rule.runFirst_computes htame rest hr fun a h => hs a (by simp [h])
    dsimp only
    rw [Rule.runFirst, Rule.matchesFirst?]
    refine Computes.bind hfirst ?_
    cases hm : Rule.matches? spec alternative w with
    | none => exact hrest w hw hn
    | some m => exact Computes.pure _

end

end

/-! ## Grammars without left recursion -/

variable {g : Grammar}

/-- With a depth that is enough, the body of a named rule matches as it does plainly. The induction
is on the depth: the rule calls others in smaller windows, or of smaller rank in the same one. -/
theorem runBody_computes (hg : g.LeftRecursionFree) {depth : Nat} {name : String} {w : Window}
    (hw : w.Over input) (hdepth : g.leftDepth name w ≤ depth) :
    Computes (Rule.matches? g.body?) input (g.runBody depth name w) (g.body? name w) := by
  induction depth generalizing name w with
  | zero => simp [leftDepth] at hdepth
  | succ depth ih =>
    rw [runBody, body?_eq hg]
    cases hbody : g.rule? name with
    | none => exact Computes.pure _
    | some body =>
      have hrefines : Refines input g w.size (fun callee => g.leftRank callee < g.leftRank name)
          (g.runBody depth) g.body? := by
        refine ⟨fun callee k hk v hv hsize => ?_, fun callee hcallee v hv hsize => ?_, ?_⟩
        · exact ih hv (leftDepth_le_of_size_lt hdepth (by omega))
        · exact ih hv (leftDepth_le_of_rank_lt hdepth hsize hcallee)
        · exact fun caller callee hcaller hcall => (leftRank_lt hg hcall).trans hcaller
      exact Rule.run_computes (tame_body? g) body hrefines
        (fun callee h => leftRank_lt hg ⟨body, hbody, h⟩) w hw (Nat.le_refl _)

/-- Matching a named rule with a memo is plain matching. -/
theorem matchWith_computes (hg : g.LeftRecursionFree) (name : String) {w : Window}
    (hw : w.Over input) :
    Computes (Rule.matches? g.body?) input (g.matchWith name w) (g.matches? name w) :=
  Computes.bind (runBody_computes hg hw (leftDepth_le name w)) (Computes.pure _)

theorem SearchMemo.sound_empty (meaning : Rule → Window → Option Match) (input : IndexedText) :
    ({} : SearchMemo).Sound meaning input := by
  intro e he
  cases he

/-- The memos that any number of matches in the text `input` leave, whatever rules and windows they
were asked for. -/
inductive SearchMemo.Reachable (g : Grammar) (input : IndexedText) : SearchMemo → Prop where
  | fresh : Reachable g input {}
  | matched {memo : SearchMemo} (name : String) (w : Window) (hw : w.input = input)
      (h : Reachable g input memo) : Reachable g input ((g.matchWith name w).run memo).2

theorem SearchMemo.Reachable.sound (hg : g.LeftRecursionFree) {memo : SearchMemo}
    (h : memo.Reachable g input) : memo.Sound (Rule.matches? g.body?) input := by
  induction h with
  | fresh => exact SearchMemo.sound_empty _ _
  | matched name w hw _ ih => exact (matchWith_computes hg name (.inl hw) _ ih).2

/-- **The matcher that remembers is the plain matcher.** In a grammar without left recursion, a
named rule matches at any window what it matches plainly, whatever earlier matches in the same text
have left in the memo; and the plain match is not cut short by the depth to which it follows
references. -/
theorem matchWith_eq_matches? (g : Grammar) (hg : g.LeftRecursionFree) (name : String) (w : Window)
    (memo : SearchMemo) (hmemo : memo.Reachable g w.input) :
    ((g.matchWith name w).run memo).1 = g.matches? name w ∧
      ∀ depth, g.depthBound w ≤ depth →
        g.bodyMatches? depth name w = g.bodyMatches? (g.depthBound w) name w :=
  ⟨(matchWith_computes hg name (.inl rfl) memo (hmemo.sound hg)).1,
    fun _ hdepth => bodyMatches?_eq_body? hg ((leftDepth_le name w).trans hdepth)⟩

/-- Comments between `(*` and `*)`. -/
def commentGrammar : Grammar :=
  ⟨[("comment", .sequence .one [.literal .one ['(', '*'], .reference .one "body",
      .literal .one ['*', ')']]),
    ("body", .difference .one (.reference .zeroOrMore "_char") (.literal .one ['*', ')'])),
    ("_char", .charSet .one ⟨[], true⟩)]⟩

/-- The memo holds the place of the closer, which an inner opener has been matched up to. -/
theorem matchWith_eq_matches?_comment :
    let w := Window.whole ['(', '*', '(', '*', 'a', '*', ')']
    let memo := ((commentGrammar.matchWith "comment" (w.drop 2)).run {}).2
    commentGrammar.LeftRecursionFree ∧ memo.Reachable commentGrammar w.input ∧
      memo.entries.map (fun e => (e.place, e.found)) = [(4, some 5)] ∧
      ((commentGrammar.matchWith "comment" w).run memo).1 = commentGrammar.matches? "comment" w ∧
      ((commentGrammar.matches? "comment" w).map fun t => t.window.size) = some 7 := by
  intro w memo
  have hfree : commentGrammar.LeftRecursionFree :=
    leftRecursionFree_of_ranked ["body"] ["_char", "body", "comment"] (by decide) (by decide)
  have hmemo : memo.Reachable commentGrammar w.input := .matched "comment" (w.drop 2) rfl .fresh
  exact ⟨hfree, hmemo, by decide, (matchWith_eq_matches? _ hfree "comment" w memo hmemo).1,
    by decide⟩

end MarkupFilter.Grammar
