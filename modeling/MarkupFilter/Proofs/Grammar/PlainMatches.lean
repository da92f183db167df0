import MarkupFilter.Grammar.Meaning
import MarkupFilter.Proofs.Grammar.LeftRecursion

/-!
# Plain matching

What can be said of the plain meaning of rules without looking at a particular grammar: matches fit
their windows, a rule that matches without reading anything is nullable, and what stands around an
empty window does not matter. Without left recursion the depth to which `Grammar.matches?` follows
references is no restriction.

## Main definitions

* `FitsWindow`, `EmptyAlike` — what is true of every meaning of a rule.
* `Grammar.Tame` — a meaning of names that has these properties.
* `Grammar.body?` — the plain match of the body of a named rule.

## Main results

* `Grammar.bodyMatches?_stable` — following references deeper gives no other match.
* `Grammar.body?_eq` — the plain matches satisfy the equations of their rules.
* `Grammar.tame_body?` — the plain meaning of names is tame.
-/

set_option autoImplicit false

namespace MarkupFilter.Grammar

/-! ## Lengths of matches -/

theorem Window.size_upTo_le (w : Window) (place : Nat) : (w.upTo place).size ≤ w.size := by
  simp only [size, upTo]
  omega

/-- No match is longer than its window. -/
def FitsWindow (once : Window → Option Match) : Prop :=
  ∀ w m, once w = some m → m.length ≤ w.size

theorem length_repeated_le {spec : Window → Option Match} (hfit : FitsWindow spec) (fuel : Nat)
    (w : Window) : (repeated spec fuel w).found.length ≤ w.size := by
  induction fuel generalizing w with
  | zero => exact Nat.zero_le _
  | succ fuel ih =>
    rw [repeated]
    cases hm : spec w with
    | none => exact Nat.zero_le _
    | some m =>
      have hle := hfit w m hm
      simp only
      split
      · exact hle
      · have := ih (w.drop m.length)
        rw [Window.size_drop] at this
        simp only [Match.append]
        omega

theorem Quantifier.fitsWindow (q : Quantifier) {spec : Window → Option Match} (hfit : FitsWindow spec) :
    FitsWindow (q.matches? spec) := by
  intro w m h
  cases q with
  | one => exact hfit w m h
  | optional =>
    simp only [matches?, Option.some.injEq] at h
    subst h
    cases hm : spec w with
    | none => exact Nat.zero_le _
    | some m => exact hfit w m hm
  | zeroOrMore =>
    simp only [matches?, Option.some.injEq] at h
    exact h ▸ length_repeated_le hfit _ w
  | oneOrMore =>
    simp only [matches?] at h
    split at h
    · cases h
    · cases h
      exact length_repeated_le hfit _ w

theorem Window.fitsWindow_literal? (text : List Char) :
    FitsWindow fun w => w.literal? text := by
  intro w m h
  simp only [Window.literal?, Bool.and_eq_true, decide_eq_true_eq] at h
  split at h
  · next hle => cases h; exact hle.2
  · cases h

theorem Window.fitsWindow_char? (p : Char → Bool) : FitsWindow fun w => w.char? p := by
  intro w m h
  simp only [Window.char?] at h
  split at h
  · split at h
    · cases h
      simp only [Window.size]
      omega
    · cases h
  · cases h

mutual

/-- Matches of a rule fit their windows, if those of named rules do. -/
theorem Rule.fitsWindow {spec : String → Window → Option Match}
    (hspec : ∀ name, FitsWindow (spec name)) :
    ∀ rule : Rule, FitsWindow (Rule.matches? spec rule)
  | .literal q text => by
    intro w m h
    rw [Rule.matches?] at h
    exact q.fitsWindow (Window.fitsWindow_literal? text) w m h
  | .charSet q set => by
    intro w m h
    rw [Rule.matches?] at h
    exact q.fitsWindow (Window.fitsWindow_char? _) w m h
  | .charCode q code => by
    intro w m h
    rw [Rule.matches?] at h
    exact q.fitsWindow (Window.fitsWindow_char? _) w m h
  | .sequence q items => by
    intro w m h
    rw [Rule.matches?] at h
    exact q.fitsWindow (Rule.fitsWindow_all hspec items) w m h
  | .choice q alternatives => by
    intro w m h
    rw [Rule.matches?] at h
    exact q.fitsWindow (Rule.fitsWindow_first hspec alternatives) w m h
  | .difference q left right => by
    intro w m h
    rw [Rule.matches?] at h
    refine q.fitsWindow (fun w m h => ?_) w m h
    split at h
    · next place _ =>
      have := Rule.fitsWindow hspec left _ m h
      simp only [Window.size, Window.upTo] at this ⊢
      omega
    · exact Rule.fitsWindow hspec left w m h
  | .reference q name => by
    intro w m h
    rw [Rule.matches?] at h
    refine q.fitsWindow (fun w m h => ?_) w m h
    obtain ⟨m', hm', rfl⟩ := Option.map_eq_some_iff.1 h
    have := hspec name w m' hm'
    unfold Match.named
    split <;> exact this

theorem Rule.fitsWindow_all {spec : String → Window → Option Match}
    (hspec : ∀ name, FitsWindow (spec name)) :
    ∀ items : List Rule, FitsWindow fun w => Rule.matchesAll? spec items w
  | [] => by
    intro w m h
    simp only [Rule.matchesAll?, Option.some.injEq] at h
    subst h
    exact Nat.zero_le _
  | item :: rest => by
    intro w m h
    simp only [Rule.matchesAll?] at h
    cases hm : Rule.matches? spec item w with
    | none => simp [hm] at h
    | some m₁ =>
      simp only [hm] at h
      obtain ⟨m₂, hm₂, rfl⟩ := Option.map_eq_some_iff.1 h
      have h₁ := Rule.fitsWindow hspec item w m₁ hm
      have h₂ := Rule.fitsWindow_all hspec rest _ m₂ hm₂
      simp only [Window.size_drop] at h₂
      simp only [Match.append]
      omega

theorem Rule.fitsWindow_first {spec : String → Window → Option Match}
    (hspec : ∀ name, FitsWindow (spec name)) :
    ∀ alternatives : List Rule, FitsWindow fun w => Rule.matchesFirst? spec alternatives w
  | [] => by
    intro w m h
    simp [Rule.matchesFirst?] at h
  | alternative :: rest => by
    intro w m h
    simp only [Rule.matchesFirst?] at h
    cases hm : Rule.matches? spec alternative w with
    | none =>
      simp only [hm] at h
      exact Rule.fitsWindow_first hspec rest w m h
    | some m₁ =>
      simp only [hm, Option.some.injEq] at h
      subst h
      exact Rule.fitsWindow hspec alternative w _ hm

end

/-! ## Matches of nothing -/

theorem count_repeated_eq_zero {once : Window → Option Match} (fuel : Nat) (w : Window) :
    (repeated once (fuel + 1) w).count = 0 ↔ once w = none := by
  rw [repeated]
  cases once w with
  | none => simp
  | some m =>
    simp only [reduceCtorEq, iff_false]
    split <;> simp

/-- A step that is repeated and reads nothing in all has read nothing at first. -/
theorem Quantifier.skipped_or_of_matches? {q : Quantifier} {once : Window → Option Match}
    {w : Window} {m : Match} (h : q.matches? once w = some m) (hm : m.length = 0) :
    q.mayBeSkipped = true ∨ ∃ m', once w = some m' ∧ m'.length = 0 := by
  cases q with
  | one => exact .inr ⟨m, h, hm⟩
  | optional => exact .inl rfl
  | zeroOrMore => exact .inl rfl
  | oneOrMore =>
    right
    simp only [matches?, count_repeated_eq_zero] at h
    cases hfirst : once w with
    | none => simp [hfirst] at h
    | some m' =>
      refine ⟨m', rfl, ?_⟩
      simp only [hfirst, reduceCtorEq, if_false, Option.some.injEq, repeated] at h
      by_contra hpos
      rw [if_neg hpos] at h
      rw [← h] at hm
      simp only [Match.append] at hm
      omega

section

variable {g : Grammar} {call : String → Window → Option Match}

mutual

/-- A rule that matches without reading anything is nullable, if this is so of the named rules. -/
theorem Rule.nullable_of_matches? (hcall : ∀ name w m, call name w = some m → m.length = 0 →
    ∃ body, g.rule? name = some body ∧ body.Nullable g) :
    ∀ (rule : Rule) {w : Window} {m : Match}, Rule.matches? call rule w = some m →
      m.length = 0 → rule.Nullable g
  | .literal q text, w, m, h, hm => by
    rw [Rule.matches?] at h
    obtain hq | ⟨m', h', hm'⟩ := Quantifier.skipped_or_of_matches? h hm
    · exact .skipped hq
    · rw [Window.literal?_eq] at h'
      split at h'
      · cases h'
        rw [List.length_eq_zero_iff.1 hm']
        exact .literal
      · cases h'
  | .charSet q set, w, m, h, hm => by
    rw [Rule.matches?] at h
    obtain hq | ⟨m', h', hm'⟩ := Quantifier.skipped_or_of_matches? h hm
    · exact .skipped hq
    · rw [Window.char?_eq] at h'
      split at h' <;> cases h'
      cases hm'
  | .charCode q code, w, m, h, hm => by
    rw [Rule.matches?] at h
    obtain hq | ⟨m', h', hm'⟩ := Quantifier.skipped_or_of_matches? h hm
    · exact .skipped hq
    · rw [Window.char?_eq] at h'
      split at h' <;> cases h'
      cases hm'
  | .sequence q items, w, m, h, hm => by
    rw [Rule.matches?] at h
    obtain hq | ⟨m', h', hm'⟩ := Quantifier.skipped_or_of_matches? h hm
    · exact .skipped hq
    · exact .sequence (Rule.nullable_of_matchesAll? hcall items h' hm')
  | .choice q alternatives, w, m, h, hm => by
    rw [Rule.matches?] at h
    obtain hq | ⟨m', h', hm'⟩ := Quantifier.skipped_or_of_matches? h hm
    · exact .skipped hq
    · obtain ⟨alternative, hmem, hnull⟩ :=
        Rule.nullable_of_matchesFirst? hcall alternatives h' hm'
      exact .choice hmem hnull
  | .difference q left right, w, m, h, hm => by
    rw [Rule.matches?] at h
    obtain hq | ⟨m', h', hm'⟩ := Quantifier.skipped_or_of_matches? h hm
    · exact .skipped hq
    · split at h'
      · exact .difference (Rule.nullable_of_matches? hcall left h' hm')
      · exact .difference (Rule.nullable_of_matches? hcall left h' hm')
  | .reference q name, w, m, h, hm => by
    rw [Rule.matches?] at h
    obtain hq | ⟨m', h', hm'⟩ := Quantifier.skipped_or_of_matches? h hm
    · exact .skipped hq
    · obtain ⟨inner, hinner, rfl⟩ := Option.map_eq_some_iff.1 h'
      obtain ⟨body, hbody, hnull⟩ := hcall name w inner hinner (by
        unfold Match.named at hm'
        split at hm' <;> exact hm')
      exact .reference hbody hnull

theorem Rule.nullable_of_matchesAll? (hcall : ∀ name w m, call name w = some m → m.length = 0 →
    ∃ body, g.rule? name = some body ∧ body.Nullable g) :
    ∀ (items : List Rule) {w : Window} {m : Match}, Rule.matchesAll? call items w = some m →
      m.length = 0 → ∀ item ∈ items, item.Nullable g
  | [], _, _, _, _ => by simp
  | item :: rest, w, m, h, hm => by
    rw [Rule.matchesAll?] at h
    cases hitem : Rule.matches? call item w with
    | none => simp [hitem] at h
    | some first =>
      simp only [hitem] at h
      obtain ⟨more, hmore, rfl⟩ := Option.map_eq_some_iff.1 h
      obtain ⟨hfirst0, hmore0⟩ : first.length = 0 ∧ more.length = 0 := by
        simpa [Match.append] using hm
      have hhead := Rule.nullable_of_matches? hcall item hitem hfirst0
      have htail := Rule.nullable_of_matchesAll? hcall rest hmore hmore0
      simpa using ⟨hhead, htail⟩

theorem Rule.nullable_of_matchesFirst? (hcall : ∀ name w m, call name w = some m →
    m.length = 0 → ∃ body, g.rule? name = some body ∧ body.Nullable g) :
    ∀ (alternatives : List Rule) {w : Window} {m : Match},
      Rule.matchesFirst? call alternatives w = some m → m.length = 0 →
        ∃ alternative ∈ alternatives, alternative.Nullable g
  | [], _, _, h, _ => by simp [Rule.matchesFirst?] at h
  | alternative :: rest, w, m, h, hm => by
    rw [Rule.matchesFirst?] at h
    cases hfirst : Rule.matches? call alternative w with
    | none =>
      simp only [hfirst] at h
      obtain ⟨other, hmem, hnull⟩ := Rule.nullable_of_matchesFirst? hcall rest h hm
      exact ⟨other, List.mem_cons_of_mem _ hmem, hnull⟩
    | some first =>
      simp only [hfirst, Option.some.injEq] at h
      exact ⟨alternative, by simp, Rule.nullable_of_matches? hcall alternative hfirst (h ▸ hm)⟩

end

end

/-! ## Empty windows -/

/-- Whether a rule matches an empty window does not depend on where the window stands. -/
def EmptyAlike (once : Window → Option Match) : Prop :=
  ∀ v w : Window, v.size = 0 → w.size = 0 → ((once v).isSome ↔ (once w).isSome)

theorem Quantifier.emptyAlike (q : Quantifier) {once : Window → Option Match}
    (h : EmptyAlike once) : EmptyAlike (q.matches? once) := by
  intro v w hv hw
  cases q with
  | one => exact h v w hv hw
  | optional => simp [matches?]
  | zeroOrMore => simp [matches?]
  | oneOrMore =>
    have := h v w hv hw
    simp only [matches?, count_repeated_eq_zero]
    cases hov : once v <;> cases how : once w <;> simp_all

theorem nearestMatch_of_size_eq_zero (once : Window → Option Match) {w : Window}
    (hw : w.size = 0) : nearestMatch once w = none := by
  simp [nearestMatch, hw]

theorem Window.text_of_size_eq_zero {w : Window} (hw : w.size = 0) : w.text = [] :=
  List.length_eq_zero_iff.1 (w.length_text.trans hw)

section

variable {call : String → Window → Option Match}

mutual

/-- A rule matches all empty windows or none, if this is so of the named rules. -/
theorem Rule.emptyAlike (hcall : ∀ name, EmptyAlike (call name)) :
    ∀ rule : Rule, EmptyAlike (Rule.matches? call rule)
  | .literal q text => by
    intro v w hv hw
    rw [Rule.matches?, Rule.matches?]
    refine q.emptyAlike (fun v w hv hw => ?_) v w hv hw
    simp only [Window.literal?_eq, Window.text_of_size_eq_zero hv, Window.text_of_size_eq_zero hw]
  | .charSet q set => by
    intro v w hv hw
    rw [Rule.matches?, Rule.matches?]
    refine q.emptyAlike (fun v w hv hw => ?_) v w hv hw
    simp only [Window.char?_eq, Window.text_of_size_eq_zero hv, Window.text_of_size_eq_zero hw]
  | .charCode q code => by
    intro v w hv hw
    rw [Rule.matches?, Rule.matches?]
    refine q.emptyAlike (fun v w hv hw => ?_) v w hv hw
    simp only [Window.char?_eq, Window.text_of_size_eq_zero hv, Window.text_of_size_eq_zero hw]
  | .sequence q items => by
    intro v w hv hw
    rw [Rule.matches?, Rule.matches?]
    exact q.emptyAlike (Rule.emptyAlike_all hcall items) v w hv hw
  | .choice q alternatives => by
    intro v w hv hw
    rw [Rule.matches?, Rule.matches?]
    exact q.emptyAlike (Rule.emptyAlike_first hcall alternatives) v w hv hw
  | .difference q left right => by
    intro v w hv hw
    rw [Rule.matches?, Rule.matches?]
    refine q.emptyAlike (fun v w hv hw => ?_) v w hv hw
    rw [nearestMatch_of_size_eq_zero _ hv, nearestMatch_of_size_eq_zero _ hw]
    exact Rule.emptyAlike hcall left v w hv hw
  | .reference q name => by
    intro v w hv hw
    rw [Rule.matches?, Rule.matches?]
    refine q.emptyAlike (fun v w hv hw => ?_) v w hv hw
    simpa only [Option.isSome_map] using hcall name v w hv hw

theorem Rule.emptyAlike_all (hcall : ∀ name, EmptyAlike (call name)) :
    ∀ items : List Rule, EmptyAlike fun w => Rule.matchesAll? call items w
  | [] => by
    intro v w _ _
    simp [Rule.matchesAll?]
  | item :: rest => by
    intro v w hv hw
    have hitem := Rule.emptyAlike hcall item v w hv hw
    simp only [Rule.matchesAll?]
    cases hmv : Rule.matches? call item v with
    | none =>
      have hmw : Rule.matches? call item w = none := by simpa [hmv] using hitem
      simp [hmw]
    | some m =>
      obtain ⟨m', hmw⟩ := Option.isSome_iff_exists.1 (hitem.1 (by simp [hmv]))
      simp only [hmw, Option.isSome_map]
      exact Rule.emptyAlike_all hcall rest _ _ (by simp [hv]) (by simp [hw])

theorem Rule.emptyAlike_first (hcall : ∀ name, EmptyAlike (call name)) :
    ∀ alternatives : List Rule, EmptyAlike fun w => Rule.matchesFirst? call alternatives w
  | [] => by
    intro v w _ _
    simp [Rule.matchesFirst?]
  | alternative :: rest => by
    intro v w hv hw
    have hfirst := Rule.emptyAlike hcall alternative v w hv hw
    have hrest := Rule.emptyAlike_first hcall rest v w hv hw
    simp only [Rule.matchesFirst?]
    cases hmv : Rule.matches? call alternative v <;>
      cases hmw : Rule.matches? call alternative w <;> simp_all

end

end

/-! ## Tame meanings -/

/-- A meaning of names of which everything above is true. -/
structure Tame (g : Grammar) (call : String → Window → Option Match) : Prop where
  fits : ∀ name, FitsWindow (call name)
  alike : ∀ name, EmptyAlike (call name)
  nullable : ∀ name w m, call name w = some m → m.length = 0 →
    ∃ body, g.rule? name = some body ∧ body.Nullable g

theorem tame_bodyMatches? (g : Grammar) (depth : Nat) : g.Tame (g.bodyMatches? depth) := by
  induction depth with
  | zero =>
    refine ⟨fun name w m h => ?_, fun name v w _ _ => ?_, fun name w m h => ?_⟩
    · cases h
    · simp [bodyMatches?]
    · cases h
  | succ depth ih =>
    refine ⟨fun name w m h => ?_, fun name v w hv hw => ?_, fun name w m h hm => ?_⟩
    · obtain ⟨body, -, hm⟩ := Option.bind_eq_some_iff.1 h
      exact Rule.fitsWindow ih.fits body w m hm
    · simp only [bodyMatches?]
      cases g.rule? name with
      | none => simp
      | some body => exact Rule.emptyAlike ih.alike body v w hv hw
    · obtain ⟨body, hbody, hmatch⟩ := Option.bind_eq_some_iff.1 h
      exact ⟨body, hbody, Rule.nullable_of_matches? ih.nullable body hmatch hm⟩

/-! ## The depth of references -/

/-- Two meanings of names agree on all windows of less than `n` characters, and for the names in
`started` on those of `n` characters too. -/
structure AgreeUpTo (n : Nat) (started : String → Prop)
    (call call' : String → Window → Option Match) : Prop where
  smaller : ∀ name w, w.size < n → call name w = call' name w
  here : ∀ name, started name → ∀ w, w.size ≤ n → call name w = call' name w

theorem AgreeUpTo.below {n k : Nat} {started : String → Prop}
    {call call' : String → Window → Option Match} (h : AgreeUpTo n started call call')
    (hk : k < n) : AgreeUpTo k (fun _ => True) call call' :=
  ⟨fun name w hw => h.smaller name w (by omega), fun name _ w hw => h.smaller name w (by omega)⟩

theorem repeated_congr {once once' : Window → Option Match} {n : Nat}
    (h : ∀ w : Window, w.size ≤ n → once w = once' w) (fuel : Nat) {w : Window}
    (hw : w.size ≤ n) : repeated once fuel w = repeated once' fuel w := by
  induction fuel generalizing w with
  | zero => rfl
  | succ fuel ih =>
    rw [repeated, repeated, h w hw]
    cases once' w with
    | none => rfl
    | some m =>
      dsimp only
      rw [ih (w := w.drop m.length) (by rw [Window.size_drop]; omega)]

theorem Quantifier.matches?_congr (q : Quantifier) {once once' : Window → Option Match} {n : Nat}
    (h : ∀ w : Window, w.size ≤ n → once w = once' w) {w : Window} (hw : w.size ≤ n) :
    q.matches? once w = q.matches? once' w := by
  cases q with
  | one => exact h w hw
  | optional => simp only [matches?, h w hw]
  | zeroOrMore => simp only [matches?, repeated_congr h _ hw]
  | oneOrMore => simp only [matches?, repeated_congr h _ hw]

section

variable {g : Grammar} {call call' : String → Window → Option Match}

mutual

/-- Only the names that a rule starts with are looked at in the window itself, all others in a
smaller one. -/
theorem Rule.matches?_congr (htame : g.Tame call) : ∀ (rule : Rule) {n : Nat}
    {started : String → Prop}, AgreeUpTo n started call call' →
      (∀ name, rule.Starts g name → started name) → ∀ {w : Window}, w.size ≤ n →
        Rule.matches? call rule w = Rule.matches? call' rule w
  | .literal q text, _, _, _, _, _, _ => by rw [Rule.matches?, Rule.matches?]
  | .charSet q set, _, _, _, _, _, _ => by rw [Rule.matches?, Rule.matches?]
  | .charCode q code, _, _, _, _, _, _ => by rw [Rule.matches?, Rule.matches?]
  | .sequence q items, n, started, hagree, hs, w, hw => by
    rw [Rule.matches?, Rule.matches?]
    refine q.matches?_congr (fun w hw => ?_) hw
    exact Rule.matchesAll?_congr htame items hagree
      (fun name h => hs name (h.requantify q)) hw
  | .choice q alternatives, n, started, hagree, hs, w, hw => by
    rw [Rule.matches?, Rule.matches?]
    refine q.matches?_congr (fun w hw => ?_) hw
    exact Rule.matchesFirst?_congr htame alternatives hagree
      (fun a hmem name h => hs name (.choice hmem h)) hw
  | .difference q left right, n, started, hagree, hs, w, hw => by
    rw [Rule.matches?, Rule.matches?]
    refine q.matches?_congr (fun w hw => ?_) hw
    have hleft : ∀ {w : Window}, w.size ≤ n →
        Rule.matches? call left w = Rule.matches? call' left w :=
      Rule.matches?_congr htame left hagree fun name h => hs name (.left h)
    have hright : ∀ k, Rule.matches? call right (w.drop k) = Rule.matches? call' right (w.drop k) :=
      fun k => Rule.matches?_congr htame right hagree (fun name h => hs name (.right h))
        (by rw [Window.size_drop]; omega)
    have hnearest : nearestMatch (fun w => Rule.matches? call right w) w =
        nearestMatch (fun w => Rule.matches? call' right w) w := by
      simp only [nearestMatch, hright]
    rw [hnearest]
    cases nearestMatch (fun w => Rule.matches? call' right w) w with
    | none => exact hleft hw
    | some place => exact hleft ((w.size_upTo_le place).trans hw)
  | .reference q name, n, started, hagree, hs, w, hw => by
    rw [Rule.matches?, Rule.matches?]
    refine q.matches?_congr (fun w hw => ?_) hw
    rw [hagree.here name (hs name .reference) w hw]

theorem Rule.matchesAll?_congr (htame : g.Tame call) : ∀ (items : List Rule) {n : Nat}
    {started : String → Prop}, AgreeUpTo n started call call' →
      (∀ name, Rule.Starts g (.sequence .one items) name → started name) → ∀ {w : Window},
        w.size ≤ n → Rule.matchesAll? call items w = Rule.matchesAll? call' items w
  | [], _, _, _, _, _, _ => by rw [Rule.matchesAll?, Rule.matchesAll?]
  | item :: rest, n, started, hagree, hs, w, hw => by
    rw [Rule.matchesAll?, Rule.matchesAll?,
      ← Rule.matches?_congr htame item hagree (fun name h => hs name h.head) hw]
    cases hm : Rule.matches? call item w with
    | none => rfl
    | some m =>
      have hfit := Rule.fitsWindow htame.fits item w m hm
      dsimp only
      congr 1
      by_cases h0 : m.length = 0
      · have hitem := Rule.nullable_of_matches? htame.nullable item hm h0
        exact Rule.matchesAll?_congr htame rest hagree (fun name h => hs name (h.tail hitem))
          (by rw [Window.size_drop]; omega)
      · exact Rule.matchesAll?_congr htame rest (hagree.below (k := (w.drop m.length).size)
          (by rw [Window.size_drop]; omega)) (fun _ _ => trivial) (Nat.le_refl _)

theorem Rule.matchesFirst?_congr (htame : g.Tame call) : ∀ (alternatives : List Rule) {n : Nat}
    {started : String → Prop}, AgreeUpTo n started call call' →
      (∀ a ∈ alternatives, ∀ name, a.Starts g name → started name) → ∀ {w : Window},
        w.size ≤ n → Rule.matchesFirst? call alternatives w = Rule.matchesFirst? call' alternatives w
  | [], _, _, _, _, _, _ => by rw [Rule.matchesFirst?, Rule.matchesFirst?]
  | alternative :: rest, n, started, hagree, hs, w, hw => by
    rw [Rule.matchesFirst?, Rule.matchesFirst?,
      Rule.matches?_congr htame alternative hagree (hs alternative (by simp)) hw,
      Rule.matchesFirst?_congr htame rest hagree (fun a h => hs a (by simp [h])) hw]

end

end

variable {g : Grammar}

/-- The depth to which references have to be followed to match the rule `name` at `w`. -/
noncomputable def leftDepth (g : Grammar) (name : String) (w : Window) : Nat :=
  w.size * (g.rules.length + 1) + g.leftRank name + 1

theorem leftDepth_le (name : String) (w : Window) : g.leftDepth name w ≤ g.depthBound w := by
  have := leftRank_le (g := g) name
  rw [leftDepth, depthBound, Nat.add_mul]
  omega

/-- Every rule may be looked at in a smaller window. -/
theorem leftDepth_le_of_size_lt {name caller : String} {v w : Window} {depth : Nat}
    (hdepth : g.leftDepth caller w ≤ depth + 1) (h : v.size < w.size) :
    g.leftDepth name v ≤ depth := by
  have hrank := leftRank_le (g := g) name
  have hmul : (v.size + 1) * (g.rules.length + 1) ≤ w.size * (g.rules.length + 1) :=
    Nat.mul_le_mul_right _ h
  rw [Nat.add_mul] at hmul
  simp only [leftDepth] at hdepth ⊢
  omega

/-- In a window no larger, the rules of smaller rank may be looked at. -/
theorem leftDepth_le_of_rank_lt {name caller : String} {v w : Window} {depth : Nat}
    (hdepth : g.leftDepth caller w ≤ depth + 1) (h : v.size ≤ w.size)
    (hrank : g.leftRank name < g.leftRank caller) : g.leftDepth name v ≤ depth := by
  have hmul : v.size * (g.rules.length + 1) ≤ w.size * (g.rules.length + 1) :=
    Nat.mul_le_mul_right _ h
  simp only [leftDepth] at hdepth ⊢
  omega

/-- **Following references deeper gives no other match.**

The induction is on the depth: a rule looks at itself again only in a smaller window, and at rules
of smaller rank in the same one. -/
theorem bodyMatches?_stable (hg : g.LeftRecursionFree) {depth depth' : Nat} {name : String}
    {w : Window} (hdepth : g.leftDepth name w ≤ depth) (hdepth' : g.leftDepth name w ≤ depth') :
    g.bodyMatches? depth name w = g.bodyMatches? depth' name w := by
  induction depth generalizing depth' name w with
  | zero => simp [leftDepth] at hdepth
  | succ depth ih =>
    obtain ⟨depth', rfl⟩ : ∃ d, depth' = d + 1 := ⟨depth' - 1, by simp only [leftDepth] at *; omega⟩
    rw [bodyMatches?, bodyMatches?]
    cases hbody : g.rule? name with
    | none => rfl
    | some body =>
      have hagree : AgreeUpTo w.size (fun callee => g.leftRank callee < g.leftRank name)
          (g.bodyMatches? depth) (g.bodyMatches? depth') := by
        refine ⟨fun callee v hv => ?_, fun callee hcallee v hv => ?_⟩
        · exact ih (leftDepth_le_of_size_lt hdepth hv) (leftDepth_le_of_size_lt hdepth' hv)
        · exact ih (leftDepth_le_of_rank_lt hdepth hv hcallee)
            (leftDepth_le_of_rank_lt hdepth' hv hcallee)
      exact Rule.matches?_congr (tame_bodyMatches? g depth) body hagree
        (fun callee h => leftRank_lt hg ⟨body, hbody, h⟩) (Nat.le_refl _)

/-- The plain match of the body of a named rule. -/
def body? (g : Grammar) (name : String) (w : Window) : Option Match :=
  g.bodyMatches? (g.depthBound w) name w

theorem tame_body? (g : Grammar) : g.Tame g.body? where
  fits name w := (tame_bodyMatches? g _).fits name w
  alike name v w hv hw := by
    have hbound : g.depthBound v = g.depthBound w := by rw [depthBound, depthBound, hv, hw]
    rw [body?, body?, hbound]
    exact (tame_bodyMatches? g _).alike name v w hv hw
  nullable name w := (tame_bodyMatches? g _).nullable name w

theorem bodyMatches?_eq_body? (hg : g.LeftRecursionFree) {depth : Nat} {name : String}
    {w : Window} (hdepth : g.leftDepth name w ≤ depth) :
    g.bodyMatches? depth name w = g.body? name w :=
  bodyMatches?_stable hg hdepth (leftDepth_le name w)

/-- The plain matches satisfy the equations of their rules. -/
theorem body?_eq (hg : g.LeftRecursionFree) (name : String) (w : Window) :
    g.body? name w = (g.rule? name).bind fun rule => rule.matches? g.body? w := by
  have hdeep := leftDepth_le (g := g) name w
  rw [← bodyMatches?_eq_body? hg (hdeep.trans (Nat.le_succ _)), bodyMatches?]
  cases g.rule? name with
  | none => rfl
  | some body =>
    have hagree : AgreeUpTo w.size (fun _ => True) (g.bodyMatches? (g.depthBound w)) g.body? := by
      have hle : ∀ name (v : Window), v.size ≤ w.size →
          g.bodyMatches? (g.depthBound w) name v = g.body? name v := fun name v hv =>
        bodyMatches?_eq_body? hg ((leftDepth_le name v).trans
          (Nat.mul_le_mul_right _ (Nat.succ_le_succ hv)))
      exact ⟨fun name v hv => hle name v hv.le, fun name _ v hv => hle name v hv⟩
    exact Rule.matches?_congr (tame_bodyMatches? g _) body hagree (fun _ _ => trivial)
      (Nat.le_refl _)

end MarkupFilter.Grammar
