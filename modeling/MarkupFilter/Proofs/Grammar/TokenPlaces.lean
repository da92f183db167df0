import MarkupFilter.Grammar.Meaning
import MarkupFilter.Proofs.Grammar.LeftRecursion
import Mathlib.Data.List.Pairwise

/-!
# Where tokens stand

The tokens that a match makes stand one after the other within the characters it takes, and so do
the tokens inside each of them. Of two tokens directly inside a third, no character belongs to both.

## Main definitions

* `Window.Contains`, `Window.Within` — places in a window, and windows in a window.
* `Token.WellPlaced` — the tokens inside a token stand apart, and its rule refers to theirs.
* `Match.InOrder` — the tokens of a match stand apart.
* `Match.LaidOut` — and they are made by given rules.

## Main results

* `bodyMatches?_laidOut` — the matches of a grammar are laid out.
* `Token.WellPlaced.forall_rows` — which tokens inside a token may contain a place.
-/

set_option autoImplicit false

namespace MarkupFilter.Grammar

/-! ## Places in windows -/

namespace Window

/-- The place belongs to the window. -/
def Contains (w : Window) (place : Nat) : Prop :=
  w.place ≤ place ∧ place < w.limit

/-- The window is a part of another. -/
structure Within (v w : Window) : Prop where
  input_eq : v.input = w.input
  place_le : w.place ≤ v.place
  limit_le : v.limit ≤ w.limit

namespace Within

variable {u v w : Window}

theorem trans (h : u.Within v) (h' : v.Within w) : u.Within w :=
  ⟨h.input_eq.trans h'.input_eq, Nat.le_trans h'.place_le h.place_le,
    Nat.le_trans h.limit_le h'.limit_le⟩

theorem contains (h : v.Within w) {place : Nat} (hv : v.Contains place) : w.Contains place :=
  ⟨Nat.le_trans h.place_le hv.1, Nat.lt_of_lt_of_le hv.2 h.limit_le⟩

theorem upTo_of_le (w : Window) {n m : Nat} (h : n ≤ m) : (w.upTo n).Within (w.upTo m) :=
  ⟨rfl, Nat.le_refl _, by simp only [upTo]; omega⟩

end Within

end Window

/-! ## Tokens -/

/-- The names that the rule of a name refers to. -/
def referencesIn (g : Grammar) (name : String) : List String :=
  ((g.rule? name).map Rule.references).getD []

/-- One token ends before the other starts. -/
def Token.Before (u v : Token) : Prop :=
  u.window.limit ≤ v.window.place

/-- The tokens directly inside stand one after the other, each within the token around it and made by
a rule that the rule of that token refers to; and so it is inside of them. -/
inductive Token.WellPlaced (g : Grammar) : Token → Prop where
  | mk {name : String} {w : Window} {cs : List Token}
      (named : ∀ c ∈ cs, c.name ∈ g.referencesIn name)
      (within : ∀ c ∈ cs, c.window.Within w) (apart : cs.Pairwise Token.Before)
      (inside : ∀ c ∈ cs, WellPlaced g c) : WellPlaced g ⟨name, w, cs⟩

theorem Token.mem_rowsOf {depth : Nat} {ts : List Token} {row : Nat × Token} :
    row ∈ Token.rowsOf depth ts ↔ ∃ t ∈ ts, row ∈ t.rows depth := by
  induction ts with
  | nil => simp
  | cons t ts ih => simp [ih]

/-- A row of a token is the token itself, or a row of a token directly inside. -/
theorem Token.mem_rows {depth : Nat} {t : Token} {row : Nat × Token} :
    row ∈ t.rows depth ↔ row = (depth, t) ∨ ∃ c ∈ t.children, row ∈ c.rows (depth + 1) := by
  cases t
  rw [Token.rows_mk, List.mem_cons, Token.mem_rowsOf]

namespace Token.WellPlaced

variable {g : Grammar} {t c d : Token}

theorem name_mem (h : t.WellPlaced g) (hc : c ∈ t.children) :
    c.name ∈ g.referencesIn t.name := by
  cases h with
  | mk named _ _ _ => exact named c hc

theorem within_of_child (h : t.WellPlaced g) (hc : c ∈ t.children) : c.window.Within t.window := by
  cases h with
  | mk _ within _ _ => exact within c hc

theorem child (h : t.WellPlaced g) (hc : c ∈ t.children) : c.WellPlaced g := by
  cases h with
  | mk _ _ _ inside => exact inside c hc

/-- A token whose rule refers to nothing has nothing inside. -/
theorem children_eq_nil (h : t.WellPlaced g)
    (hrule : g.referencesIn t.name = []) : t.children = [] := by
  rw [List.eq_nil_iff_forall_not_mem]
  intro c hc
  have := h.name_mem hc
  rw [hrule] at this
  cases this

/-- Tokens that stand apart contain no place together. -/
theorem eq_of_pairwise {ts : List Token} (h : ts.Pairwise Token.Before) (hc : c ∈ ts) (hd : d ∈ ts)
    {place : Nat} (hcp : c.window.Contains place) (hdp : d.window.Contains place) : c = d := by
  by_contra hne
  have : Std.Symm fun u v : Token => u.Before v ∨ v.Before u := ⟨fun _ _ => Or.symm⟩
  have hapart : ts.Pairwise fun u v => u.Before v ∨ v.Before u := h.imp Or.inl
  obtain ⟨hc₁, hc₂⟩ := hcp
  obtain ⟨hd₁, hd₂⟩ := hdp
  rcases hapart.forall hc hd hne with h | h <;> simp only [Token.Before] at h <;> omega

/-- Of the tokens directly inside, only one contains a place. -/
theorem eq_of_contains (h : t.WellPlaced g) (hc : c ∈ t.children) (hd : d ∈ t.children)
    {place : Nat} (hcp : c.window.Contains place) (hdp : d.window.Contains place) : c = d := by
  cases h with
  | mk _ _ apart _ => exact eq_of_pairwise apart hc hd hcp hdp

/-- Everything inside a token is within it. -/
theorem within_of_row (h : t.WellPlaced g) {depth : Nat} {row : Nat × Token}
    (hrow : row ∈ t.rows depth) : row.2.window.Within t.window := by
  induction h generalizing depth with
  | mk _ within _ _ ih =>
    rcases Token.mem_rows.1 hrow with rfl | ⟨c, hc, hrow⟩
    · exact ⟨rfl, Nat.le_refl _, Nat.le_refl _⟩
    · exact (ih c hc hrow).trans (within c hc)

/-- If a token directly inside contains a place, then so do only the token itself and tokens inside
that one. -/
theorem forall_rows (h : t.WellPlaced g) (hc : c ∈ t.children) {place : Nat}
    (hplace : c.window.Contains place) {depth : Nat} {P : Token → Prop} (hself : P t)
    (hrows : ∀ row ∈ c.rows (depth + 1), row.2.window.Contains place → P row.2) :
    ∀ row ∈ t.rows depth, row.2.window.Contains place → P row.2 := by
  intro row hrow hcontains
  rcases Token.mem_rows.1 hrow with rfl | ⟨d, hd, hrow⟩
  · exact hself
  · have hin := ((h.child hd).within_of_row hrow).contains hcontains
    obtain rfl := h.eq_of_contains hc hd hplace hin
    exact hrows row hrow hcontains

end Token.WellPlaced

/-! ## Matches -/

/-- The tokens of a match stand one after the other within what it takes of `w`. -/
structure Match.InOrder (w : Window) (m : Match) : Prop where
  within : ∀ u ∈ m.tokens, u.window.Within (w.upTo (w.place + m.length))
  apart : m.tokens.Pairwise Token.Before

namespace Match.InOrder

variable {w : Window} {m n : Match}

theorem of_nil (h : m.tokens = []) : m.InOrder w := by
  refine ⟨?_, ?_⟩ <;> rw [h] <;> simp

theorem append (hm : m.InOrder w) (hn : n.InOrder (w.drop m.length)) :
    (m.append n).InOrder w := by
  have hleft : ∀ u ∈ m.tokens, u.window.Within (w.upTo (w.place + (m.append n).length)) :=
    fun u hu => (hm.within u hu).trans (.upTo_of_le w (by simp only [Match.append]; omega))
  have hright : ∀ u ∈ n.tokens, u.window.Within (w.upTo (w.place + (m.append n).length)) ∧
      w.place + m.length ≤ u.window.place := fun u hu => by
    obtain ⟨hinput, hplace, hlimit⟩ := hn.within u hu
    simp only [Window.drop, Window.upTo] at hplace hlimit
    refine ⟨⟨hinput, ?_, ?_⟩, hplace⟩ <;> simp only [Window.upTo, Match.append] <;> omega
  refine ⟨?_, ?_⟩
  · intro u hu
    rcases List.mem_append.1 hu with hu | hu
    · exact hleft u hu
    · exact (hright u hu).1
  · refine List.pairwise_append.2 ⟨hm.apart, hn.apart, fun u hu v hv => ?_⟩
    have := (hm.within u hu).limit_le
    have := (hright v hv).2
    simp only [Window.upTo, Token.Before] at *
    omega

theorem upTo {place : Nat} (h : m.InOrder (w.upTo place)) : m.InOrder w := by
  refine { h with within := fun u hu => ?_ }
  obtain ⟨hinput, hplace, hlimit⟩ := h.within u hu
  simp only [Window.upTo] at hinput hplace hlimit ⊢
  exact ⟨hinput, hplace, by simp only at *; omega⟩

/-- A match makes one token of its own. -/
theorem toToken (m : Match) (name : String) (w : Window) :
    Match.InOrder w ⟨m.length, [m.toToken name w]⟩ := by
  refine ⟨fun u hu => ?_, List.pairwise_singleton _ _⟩
  obtain rfl := List.mem_singleton.1 hu
  exact ⟨rfl, Nat.le_refl _, Nat.le_refl _⟩

end Match.InOrder

/-- The tokens of a match stand one after the other within what it takes of `w`, and are made by the
rules called `names`. -/
structure Match.LaidOut (g : Grammar) (names : List String) (w : Window) (m : Match) : Prop where
  named : ∀ u ∈ m.tokens, u.name ∈ names
  within : ∀ u ∈ m.tokens, u.window.Within (w.upTo (w.place + m.length))
  apart : m.tokens.Pairwise Token.Before
  wellPlaced : ∀ u ∈ m.tokens, u.WellPlaced g

/-- All matches of `once` are laid out. -/
def LaysOut (g : Grammar) (names : List String) (once : Window → Option Match) : Prop :=
  ∀ w m, once w = some m → m.LaidOut g names w

section

variable {g : Grammar} {names names' : List String} {once : Window → Option Match} {w : Window}
  {m n : Match}

namespace Match.LaidOut

theorem of_nil (h : m.tokens = []) : m.LaidOut g names w := by
  refine ⟨?_, ?_, ?_, ?_⟩ <;> rw [h] <;> simp

theorem inOrder (h : m.LaidOut g names w) : m.InOrder w :=
  ⟨h.within, h.apart⟩

theorem mono (h : m.LaidOut g names w) (hnames : names ⊆ names') : m.LaidOut g names' w :=
  { h with named := fun u hu => hnames (h.named u hu) }

theorem append (hm : m.LaidOut g names w) (hn : n.LaidOut g names' (w.drop m.length)) :
    (m.append n).LaidOut g (names ++ names') w := by
  have hin := hm.inOrder.append hn.inOrder
  refine ⟨?_, hin.within, hin.apart, ?_⟩
  · intro u hu
    rcases List.mem_append.1 hu with hu | hu
    · exact List.mem_append_left _ (hm.named u hu)
    · exact List.mem_append_right _ (hn.named u hu)
  · intro u hu
    rcases List.mem_append.1 hu with hu | hu
    · exact hm.wellPlaced u hu
    · exact hn.wellPlaced u hu

theorem upTo {place : Nat} (h : m.LaidOut g names (w.upTo place)) : m.LaidOut g names w :=
  { h with within := h.inOrder.upTo.within }

/-- A match that is laid out makes a well-placed token. -/
theorem wellPlaced_toToken {name : String}
    (h : m.LaidOut g (g.referencesIn name) w) :
    (m.toToken name w).WellPlaced g :=
  .mk h.named h.within h.apart h.wellPlaced

end Match.LaidOut

theorem laidOut_repeated (h : LaysOut g names once) (fuel : Nat) (w : Window) :
    (repeated once fuel w).found.LaidOut g names w := by
  induction fuel generalizing w with
  | zero => exact .of_nil rfl
  | succ fuel ih =>
    rw [repeated]
    cases hm : once w with
    | none => exact .of_nil rfl
    | some m =>
      simp only
      split
      · exact h w m hm
      · exact ((h w m hm).append (ih _)).mono (by simp)

theorem Quantifier.laysOut (q : Quantifier) (h : LaysOut g names once) :
    LaysOut g names (q.matches? once) := by
  intro w m hm
  cases q with
  | one => exact h w m hm
  | optional =>
    simp only [Quantifier.matches?, Option.some.injEq] at hm
    subst hm
    cases honce : once w with
    | none => exact .of_nil rfl
    | some m => exact h w m honce
  | zeroOrMore =>
    simp only [Quantifier.matches?, Option.some.injEq] at hm
    subst hm
    exact laidOut_repeated h _ w
  | oneOrMore =>
    simp only [Quantifier.matches?, Option.ite_none_left_eq_some, Option.some.injEq] at hm
    obtain ⟨-, rfl⟩ := hm
    exact laidOut_repeated h _ w

theorem laysOut_literal (cs : List Char) : LaysOut g names fun w => w.literal? cs := by
  intro w m hm
  simp only [Window.literal?_eq, Option.ite_none_right_eq_some, Option.some.injEq] at hm
  obtain ⟨-, rfl⟩ := hm
  exact .of_nil rfl

theorem laysOut_char (p : Char → Bool) : LaysOut g names fun w => w.char? p := by
  intro w m hm
  simp only [Window.char?_eq, Option.ite_none_right_eq_some, Option.some.injEq] at hm
  obtain ⟨-, rfl⟩ := hm
  exact .of_nil rfl

/-- Rules that make no token of their own make none at all. -/
def SilentRulesAreBare (g : Grammar) : Prop :=
  ∀ entry ∈ g.rules, isSilent entry.1 = true → entry.2.references = []

instance (g : Grammar) : Decidable g.SilentRulesAreBare :=
  inferInstanceAs (Decidable (∀ entry ∈ g.rules, _))

theorem laidOut_named (hg : g.SilentRulesAreBare) {name : String}
    (hm : m.LaidOut g (g.referencesIn name) w) : (m.named name w).LaidOut g [name] w := by
  unfold Match.named
  split
  · next hsilent =>
    refine .of_nil (List.eq_nil_iff_forall_not_mem.2 fun u hu => ?_)
    have hnamed := hm.named u hu
    rw [referencesIn] at hnamed
    cases hrule : g.rule? name with
    | none =>
      rw [hrule] at hnamed
      cases hnamed
    | some rule =>
      rw [hrule, Option.map_some, Option.getD_some,
        hg _ (mem_rules_of_rule? hrule) hsilent] at hnamed
      cases hnamed
  · have hin := Match.InOrder.toToken m name w
    refine ⟨?_, hin.within, hin.apart, ?_⟩
    · simp [Match.toToken]
    · intro u hu
      obtain rfl := List.mem_singleton.1 hu
      exact hm.wellPlaced_toToken

variable {call : String → Window → Option Match}

mutual

/-- Matches of a rule are laid out, if those of named rules are. -/
theorem Rule.laysOut (hg : g.SilentRulesAreBare)
    (hcall : ∀ name, LaysOut g (g.referencesIn name) (call name)) :
    ∀ rule : Rule, LaysOut g rule.references (Rule.matches? call rule)
  | .literal q text => by
    intro w m h
    rw [Rule.matches?] at h
    exact q.laysOut (laysOut_literal text) w m h
  | .charSet q set => by
    intro w m h
    rw [Rule.matches?] at h
    exact q.laysOut (laysOut_char _) w m h
  | .charCode q code => by
    intro w m h
    rw [Rule.matches?] at h
    exact q.laysOut (laysOut_char _) w m h
  | .sequence q items => by
    intro w m h
    rw [Rule.matches?] at h
    exact q.laysOut (Rule.laysOut_all hg hcall items) w m h
  | .choice q alternatives => by
    intro w m h
    rw [Rule.matches?] at h
    exact q.laysOut (Rule.laysOut_first hg hcall alternatives) w m h
  | .difference q left right => by
    intro w m h
    rw [Rule.matches?] at h
    refine q.laysOut (fun w m h => ?_) w m h
    have hleft : m.LaidOut g left.references w := by
      split at h
      · exact (Rule.laysOut hg hcall left _ m h).upTo
      · exact Rule.laysOut hg hcall left w m h
    exact hleft.mono (by simp [Rule.references])
  | .reference q name => by
    intro w m h
    rw [Rule.matches?] at h
    refine q.laysOut (fun w m h => ?_) w m h
    obtain ⟨body, hbody, rfl⟩ := Option.map_eq_some_iff.1 h
    exact laidOut_named hg (hcall name w body hbody)

theorem Rule.laysOut_all (hg : g.SilentRulesAreBare)
    (hcall : ∀ name, LaysOut g (g.referencesIn name) (call name)) :
    ∀ items : List Rule,
      LaysOut g (Rule.referencesOf items) fun w => Rule.matchesAll? call items w
  | [] => by
    intro w m h
    simp only [Rule.matchesAll?, Option.some.injEq] at h
    subst h
    exact .of_nil rfl
  | item :: rest => by
    intro w m h
    simp only [Rule.matchesAll?] at h
    cases hm : Rule.matches? call item w with
    | none => simp [hm] at h
    | some m₁ =>
      simp only [hm] at h
      obtain ⟨m₂, hm₂, rfl⟩ := Option.map_eq_some_iff.1 h
      exact (Rule.laysOut hg hcall item w m₁ hm).append (Rule.laysOut_all hg hcall rest _ m₂ hm₂)

theorem Rule.laysOut_first (hg : g.SilentRulesAreBare)
    (hcall : ∀ name, LaysOut g (g.referencesIn name) (call name)) :
    ∀ alternatives : List Rule,
      LaysOut g (Rule.referencesOf alternatives) fun w => Rule.matchesFirst? call alternatives w
  | [] => by
    intro w m h
    simp [Rule.matchesFirst?] at h
  | alternative :: rest => by
    intro w m h
    simp only [Rule.matchesFirst?] at h
    cases hm : Rule.matches? call alternative w with
    | none =>
      simp only [hm] at h
      exact (Rule.laysOut_first hg hcall rest w m h).mono (by simp [Rule.referencesOf])
    | some m₁ =>
      simp only [hm, Option.some.injEq] at h
      subst h
      exact (Rule.laysOut hg hcall alternative w _ hm).mono (by simp [Rule.referencesOf])

end

/-- **The matches of a grammar are laid out**, to whatever depth references are followed. -/
theorem bodyMatches?_laidOut (hg : g.SilentRulesAreBare) (depth : Nat) (name : String) :
    LaysOut g (g.referencesIn name) (g.bodyMatches? depth name) := by
  induction depth generalizing name with
  | zero =>
    intro w m h
    cases h
  | succ depth ih =>
    intro w m h
    obtain ⟨rule, hrule, hm⟩ := Option.bind_eq_some_iff.1 h
    rw [referencesIn, hrule, Option.map_some, Option.getD_some]
    exact Rule.laysOut hg ih rule w m hm

end

end MarkupFilter.Grammar
