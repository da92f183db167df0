import MarkupFilter.Grammar.Meaning
import MarkupFilter.Proofs.Text.LetterCase

/-!
# Rules that ignore letter case

A rule without letters in its literals, of which every set of characters has a letter in both cases
or in none, matches a text alike whatever the case of its letters: the match in a recased text is
the same match at the same places.

## Main definitions

* `Window.on`, `Token.on`, `Match.on` — the same places of another text.
* `CarriesOver` — a match is found at the same places of another text.
* `Rule.ignoresCase` — nothing in a rule distinguishes letters by their case.

## Main results

* `Rule.carriesOver` — such a rule matches a recased text alike.
* `bodyMatches?_carriesOver` — so do the rules of a grammar that lead to such rules only.
-/

set_option autoImplicit false

namespace MarkupFilter.Grammar

/-! ## The same places of another text -/

/-- The same stretch of the text `t`. -/
def Window.on (t : IndexedText) (w : Window) : Window :=
  ⟨t, w.place, min w.limit t.size, Nat.min_le_right _ _⟩

mutual

/-- The token at the same places of the text `t`. -/
def Token.on (t : IndexedText) : Token → Token
  | ⟨name, w, cs⟩ => ⟨name, w.on t, Token.allOn t cs⟩

/-- The tokens at the same places of the text `t`. -/
def Token.allOn (t : IndexedText) : List Token → List Token
  | [] => []
  | c :: cs => c.on t :: Token.allOn t cs

end

/-- The match at the same places of the text `t`. -/
def Match.on (t : IndexedText) (m : Match) : Match :=
  ⟨m.length, m.tokens.map (Token.on t)⟩

section

variable {t : IndexedText}

theorem Token.allOn_eq (cs : List Token) : Token.allOn t cs = cs.map (Token.on t) := by
  induction cs with
  | nil => rfl
  | cons c cs ih => rw [Token.allOn, ih, List.map_cons]

@[simp] theorem Token.name_on (u : Token) : (u.on t).name = u.name := by
  cases u
  rfl

@[simp] theorem Token.window_on (u : Token) : (u.on t).window = u.window.on t := by
  cases u
  rfl

@[simp] theorem Token.children_on (u : Token) : (u.on t).children = u.children.map (Token.on t) := by
  cases u
  exact Token.allOn_eq _

@[simp] theorem Window.place_on (w : Window) : (w.on t).place = w.place := rfl

theorem Window.on_drop (w : Window) (n : Nat) : (w.drop n).on t = (w.on t).drop n := rfl

theorem Window.on_upTo (w : Window) (n : Nat) : (w.upTo n).on t = (w.on t).upTo n := by
  simp only [on, upTo, Nat.min_assoc]

@[simp] theorem Match.length_on (m : Match) : (m.on t).length = m.length := rfl

theorem Match.on_append (m n : Match) : (m.append n).on t = (m.on t).append (n.on t) := by
  simp only [on, append, List.map_append]

theorem Match.on_toToken (m : Match) (name : String) (w : Window) :
    (m.toToken name w).on t = (m.on t).toToken name (w.on t) := by
  rw [toToken, Token.on, Token.allOn_eq, Window.on_upTo]
  rfl

theorem Match.on_named (m : Match) (name : String) (w : Window) :
    (m.named name w).on t = (m.on t).named name (w.on t) := by
  unfold named
  split
  · rfl
  · rw [← on_toToken]
    rfl

/-- In a recased text the stretch has as many characters. -/
theorem Window.limit_on {w : Window} (h : w.input.Recased t) : (w.on t).limit = w.limit := by
  exact Nat.min_eq_left (h.size_eq ▸ w.limit_le)

theorem Window.size_on {w : Window} (h : w.input.Recased t) : (w.on t).size = w.size := by
  rw [size, limit_on h]
  rfl

/-- The characters at the same places of a recased text are the same up to letter case. -/
theorem Window.text_on {w : Window} (h : w.input.Recased t) :
    (w.on t).text.map Char.toLower = w.text.map Char.toLower := by
  rw [text_eq, text_eq, size_on h, List.map_take, List.map_take, List.map_drop, List.map_drop]
  exact congrArg (fun cs => (cs.drop w.place).take w.size) h

/-! ## Matches that are carried over -/

variable (t) in
/-- What `once` matches at `w` is what it matches at the same place of the text `t`. -/
def CarriesOver (once : Window → Option Match) (w : Window) : Prop :=
  once (w.on t) = (once w).map (Match.on t)

variable (t) in
/-- What `once` matches in a text is what it matches in the recased text `t`. -/
def AlwaysCarriesOver (once : Window → Option Match) : Prop :=
  ∀ w, w.input.Recased t → CarriesOver t once w

variable {once : Window → Option Match} {w : Window}

theorem carriesOver_literal {cs : List Char} (hcs : cs.all AsciiCase.hasNoCase = true) :
    AlwaysCarriesOver t fun w => w.literal? cs := by
  intro w hw
  simp only [CarriesOver, Window.literal?_eq]
  rw [AsciiCase.isPrefixOf_iff hcs (Window.text_on hw)]
  split <;> rfl

theorem carriesOver_char {p : Char → Bool} (hp : ∀ u ∈ AsciiCase.capitals, p u = p u.toLower) :
    AlwaysCarriesOver t fun w => w.char? p := by
  intro w hw
  have hhead : (w.on t).text.head?.any p = w.text.head?.any p := by
    have h := congrArg List.head? (Window.text_on hw)
    rw [List.head?_map, List.head?_map] at h
    cases hu : (w.on t).text.head? with
    | none =>
      rw [hu, Option.map_none, eq_comm, Option.map_eq_none_iff] at h
      rw [h]
    | some u =>
      rw [hu, Option.map_some, eq_comm, Option.map_eq_some_iff] at h
      obtain ⟨v, hv, hvu⟩ := h
      rw [hv]
      exact AsciiCase.congr_of_capitals hp hvu.symm
  simp only [CarriesOver, Window.char?_eq]
  rw [hhead]
  split <;> rfl

theorem repeated_on (h : AlwaysCarriesOver t once) (fuel : Nat) (w : Window)
    (hw : w.input.Recased t) :
    repeated once fuel (w.on t) =
      ⟨(repeated once fuel w).count, (repeated once fuel w).found.on t⟩ := by
  induction fuel generalizing w with
  | zero => rfl
  | succ fuel ih =>
    rw [repeated, repeated, h w hw]
    cases once w with
    | none => rfl
    | some m =>
      have hdrop := ih (w.drop m.length) hw
      rw [Window.on_drop] at hdrop
      simp only [Option.map_some, Match.length_on, hdrop, ← Match.on_append]
      split <;> rfl

theorem Quantifier.carriesOver (q : Quantifier) (h : AlwaysCarriesOver t once) :
    AlwaysCarriesOver t (q.matches? once) := by
  intro w hw
  unfold CarriesOver
  cases q with
  | one => exact h w hw
  | optional =>
    have hw := h w hw
    rw [CarriesOver] at hw
    simp only [Quantifier.matches?, hw]
    cases once w <;> rfl
  | zeroOrMore =>
    simp only [Quantifier.matches?, Window.size_on hw, repeated_on h _ w hw, Option.map_some]
  | oneOrMore =>
    simp only [Quantifier.matches?, Window.size_on hw, repeated_on h _ w hw]
    split <;> rfl

theorem nearestMatch_on (h : AlwaysCarriesOver t once) (hw : w.input.Recased t) :
    nearestMatch once (w.on t) = nearestMatch once w := by
  have hsome : ∀ n, (once ((w.on t).drop n)).isSome = (once (w.drop n)).isSome := fun n => by
    have hdrop := h (w.drop n) hw
    rw [CarriesOver, Window.on_drop] at hdrop
    rw [hdrop, Option.isSome_map]
  rw [nearestMatch, nearestMatch, Window.size_on hw, Window.place_on]
  simp only [hsome]

/-! ## Rules -/

mutual

/-- Whether nothing in a rule distinguishes letters by their case. -/
def Rule.ignoresCase : Rule → Bool
  | .literal _ text => text.all AsciiCase.hasNoCase
  | .charSet _ set => AsciiCase.capitals.all fun u => set.contains u == set.contains u.toLower
  | .charCode _ code => AsciiCase.hasNoCase code
  | .sequence _ items => Rule.allIgnoreCase items
  | .choice _ alternatives => Rule.allIgnoreCase alternatives
  | .difference _ left right => Rule.ignoresCase left && Rule.ignoresCase right
  | .reference _ _ => true

/-- Whether nothing in several rules distinguishes letters by their case. -/
def Rule.allIgnoreCase : List Rule → Bool
  | [] => true
  | rule :: rules => Rule.ignoresCase rule && Rule.allIgnoreCase rules

end

variable {call : String → Window → Option Match}

/-- A sequence is carried over if its first item is, and the other items are where that one ends. -/
theorem carriesOver_cons {item : Rule} {items : List Rule}
    (hitem : CarriesOver t (Rule.matches? call item) w)
    (hitems : ∀ m, Rule.matches? call item w = some m →
      CarriesOver t (Rule.matchesAll? call items) (w.drop m.length)) :
    CarriesOver t (Rule.matchesAll? call (item :: items)) w := by
  rw [CarriesOver] at hitem ⊢
  rw [Rule.matchesAll?, Rule.matchesAll?, hitem]
  cases hm : Rule.matches? call item w with
  | none => rfl
  | some m =>
    have hrest := hitems m hm
    rw [CarriesOver, Window.on_drop] at hrest
    simp only [Option.map_some, Match.length_on]
    rw [hrest, Option.map_map, Option.map_map]
    exact congrArg (Option.map · _) (funext fun n => (Match.on_append m n).symm)

/-- A choice is carried over if its alternatives are. -/
theorem carriesOver_first {alternative : Rule} {rest : List Rule}
    (halternative : CarriesOver t (Rule.matches? call alternative) w)
    (hrest : CarriesOver t (Rule.matchesFirst? call rest) w) :
    CarriesOver t (Rule.matchesFirst? call (alternative :: rest)) w := by
  rw [CarriesOver] at halternative hrest ⊢
  rw [Rule.matchesFirst?, Rule.matchesFirst?, halternative]
  cases Rule.matches? call alternative w with
  | none => exact hrest
  | some m => rfl

/-- A reference is carried over if the match of its body is. -/
theorem carriesOver_reference {name : String} (h : CarriesOver t (call name) w) :
    CarriesOver t (Rule.matches? call (.reference .one name)) w := by
  rw [CarriesOver] at h ⊢
  rw [Rule.matches?, Rule.matches?, Quantifier.matches?, Quantifier.matches?, h, Option.map_map,
    Option.map_map]
  exact congrArg (Option.map · _) (funext fun m => (Match.on_named m name w).symm)

mutual

/-- **A rule that ignores letter case matches a recased text alike**, if the rules that it refers to
do. -/
theorem Rule.carriesOver : ∀ (rule : Rule), rule.ignoresCase = true →
    (∀ name ∈ rule.references, AlwaysCarriesOver t (call name)) →
    AlwaysCarriesOver t (Rule.matches? call rule)
  | .literal q text, h, _ => by
    intro w hw
    rw [CarriesOver, Rule.matches?, Rule.matches?]
    exact q.carriesOver (carriesOver_literal h) w hw
  | .charSet q set, h, _ => by
    intro w hw
    rw [CarriesOver, Rule.matches?, Rule.matches?]
    refine q.carriesOver (carriesOver_char fun u hu => ?_) w hw
    simp only [Rule.ignoresCase, List.all_eq_true, beq_iff_eq] at h
    exact h u hu
  | .charCode q code, h, _ => by
    intro w hw
    rw [CarriesOver, Rule.matches?, Rule.matches?]
    refine q.carriesOver (carriesOver_char fun u hu => ?_) w hw
    rw [Rule.ignoresCase] at h
    simp only [AsciiCase.hasNoCase, List.all_eq_true, Bool.and_eq_true, bne_iff_ne] at h
    obtain ⟨h₁, h₂⟩ := h u hu
    rw [beq_eq_false_iff_ne.2 h₁, beq_eq_false_iff_ne.2 h₂]
  | .sequence q items, h, hcall => by
    intro w hw
    rw [CarriesOver, Rule.matches?, Rule.matches?]
    exact q.carriesOver (Rule.carriesOver_all items h hcall) w hw
  | .choice q alternatives, h, hcall => by
    intro w hw
    rw [CarriesOver, Rule.matches?, Rule.matches?]
    exact q.carriesOver (Rule.carriesOver_any alternatives h hcall) w hw
  | .difference q left right, h, hcall => by
    simp only [Rule.ignoresCase, Bool.and_eq_true] at h
    simp only [Rule.references, List.mem_append] at hcall
    have hleft := Rule.carriesOver left h.1 fun name hname => hcall name (.inl hname)
    have hright := Rule.carriesOver right h.2 fun name hname => hcall name (.inr hname)
    intro w hw
    rw [CarriesOver, Rule.matches?, Rule.matches?]
    refine q.carriesOver (fun w hw => ?_) w hw
    simp only [CarriesOver]
    rw [nearestMatch_on hright hw]
    cases nearestMatch (fun w => Rule.matches? call right w) w with
    | none => exact hleft w hw
    | some place =>
      have := hleft (w.upTo place) hw
      rwa [CarriesOver, Window.on_upTo] at this
  | .reference q name, _, hcall => by
    intro w hw
    rw [CarriesOver, Rule.matches?, Rule.matches?]
    refine q.carriesOver (fun w hw => ?_) w hw
    have := carriesOver_reference (hcall name (by simp [Rule.references]) w hw)
    rwa [CarriesOver, Rule.matches?, Rule.matches?] at this

theorem Rule.carriesOver_all : ∀ (items : List Rule), Rule.allIgnoreCase items = true →
    (∀ name ∈ Rule.referencesOf items, AlwaysCarriesOver t (call name)) →
    AlwaysCarriesOver t fun w => Rule.matchesAll? call items w
  | [], _, _ => by
    intro w _
    simp only [CarriesOver, Rule.matchesAll?]
    rfl
  | item :: rest, h, hcall => by
    simp only [Rule.allIgnoreCase, Bool.and_eq_true] at h
    simp only [Rule.referencesOf, List.mem_append] at hcall
    intro w hw
    exact carriesOver_cons
      (Rule.carriesOver item h.1 (fun name hname => hcall name (.inl hname)) w hw)
      fun m _ => Rule.carriesOver_all rest h.2 (fun name hname => hcall name (.inr hname)) _ hw

theorem Rule.carriesOver_any : ∀ (alternatives : List Rule),
    Rule.allIgnoreCase alternatives = true →
    (∀ name ∈ Rule.referencesOf alternatives, AlwaysCarriesOver t (call name)) →
    AlwaysCarriesOver t fun w => Rule.matchesFirst? call alternatives w
  | [], _, _ => by
    intro w _
    simp only [CarriesOver, Rule.matchesFirst?]
    rfl
  | alternative :: rest, h, hcall => by
    simp only [Rule.allIgnoreCase, Bool.and_eq_true] at h
    simp only [Rule.referencesOf, List.mem_append] at hcall
    intro w hw
    exact carriesOver_first
      (Rule.carriesOver alternative h.1 (fun name hname => hcall name (.inl hname)) w hw)
      (Rule.carriesOver_any rest h.2 (fun name hname => hcall name (.inr hname)) w hw)

end

/-! ## Grammars -/

/-- The rules called `names` ignore letter case, and refer to each other only. -/
def IgnoreCase (g : Grammar) (names : List String) : Prop :=
  ∀ name ∈ names, (g.rule? name).all fun rule =>
    rule.ignoresCase && rule.references.all names.contains

instance (g : Grammar) (names : List String) : Decidable (g.IgnoreCase names) :=
  inferInstanceAs (Decidable (∀ name ∈ names, _))

/-- **Such rules of a grammar match a recased text alike.** The induction is on the depth to which
references are followed. -/
theorem bodyMatches?_carriesOver {g : Grammar} {names : List String} (hg : g.IgnoreCase names)
    (depth : Nat) {name : String} (hname : name ∈ names) :
    AlwaysCarriesOver t (g.bodyMatches? depth name) := by
  induction depth generalizing name with
  | zero => exact fun w _ => rfl
  | succ depth ih =>
    intro w hw
    have hrule := hg name hname
    simp only [CarriesOver, bodyMatches?]
    cases hbody : g.rule? name with
    | none => rfl
    | some rule =>
      simp only [hbody, Option.all_some, Bool.and_eq_true, List.all_eq_true,
        List.contains_iff_mem] at hrule
      exact Rule.carriesOver rule hrule.1 (fun callee h => ih (hrule.2 callee h)) w hw

end

end MarkupFilter.Grammar
