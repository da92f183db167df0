import MarkupFilter.Proofs.Grammar.LetterCase
import MarkupFilter.Proofs.Grammar.TokenPlaces
import MarkupFilter.Proofs.Markup.Pieces

/-!
# The letter case of names

Two texts that differ only in the case of letters in the names of tags and of their attributes have
the same units at the same places. Only conditional comments look at the case of letters at all, and
the letters they look at belong to no name.

## Main definitions

* `Markup.IsNamePlace` — the place belongs to a name in a tag.
* `Markup.NamesRecased` — a text with some letters of its names in another case.

## Main results

* `Markup.RecasedFrom.carriesOver_unit` — letters of names do not count for how a unit is read.
* `Markup.NamesRecased.unitTokens_eq` — the units of such a text are those of the first, place by
  place.
* `Markup.NamesRecased.map_kindAndSpan` — they are of the same kinds and take the same bytes.
-/

set_option autoImplicit false

namespace MarkupFilter.Markup

open Grammar

/-! ## Places in names -/

/-- The token is the name of a tag or of an attribute. -/
def IsName (t : Token) : Prop :=
  t.name = "tagName" ∨ t.name = "attrName"

/-- The place belongs to a name in the unit, which is a start tag or an end tag. -/
def IsNamePlace (unit : Token) (place : Nat) : Prop :=
  ∃ tag ∈ unit.children, (tag.name = "startTag" ∨ tag.name = "endTag") ∧
    ∃ row ∈ tag.rows 0, IsName row.2 ∧ row.2.window.Contains place

/-- The text `b` is `a` with some letters of the names in its tags in another case. -/
structure NamesRecased (a b : String) : Prop where
  lower_eq : AsciiCase.lower b = AsciiCase.lower a
  eq_elsewhere : ∀ place, (∀ unit ∈ unitTokens a, ¬IsNamePlace unit place) →
    b.toList[place]? = a.toList[place]?

instance (w : Window) (place : Nat) : Decidable (w.Contains place) :=
  inferInstanceAs (Decidable (_ ∧ _))

instance (t : Token) : Decidable (IsName t) :=
  inferInstanceAs (Decidable (_ ∨ _))

instance (unit : Token) (place : Nat) : Decidable (IsNamePlace unit place) :=
  inferInstanceAs (Decidable (∃ tag ∈ unit.children, _ ∧ ∃ row ∈ tag.rows 0, _))

/-- Only the places within the text count. -/
theorem namesRecased_iff {a b : String} : NamesRecased a b ↔
    AsciiCase.lower b = AsciiCase.lower a ∧ ∀ place < a.toList.length,
      (∀ unit ∈ unitTokens a, ¬IsNamePlace unit place) → b.toList[place]? = a.toList[place]? := by
  refine ⟨fun h => ⟨h.lower_eq, fun place _ => h.eq_elsewhere place⟩, fun h => ⟨h.1, ?_⟩⟩
  intro place hnames
  have hlength : b.toList.length = a.toList.length := by
    have := congrArg (·.toList.length) h.1
    simpa only [AsciiCase.toList_lower, List.length_map] using this
  rcases Nat.lt_or_ge place a.toList.length with hlt | hge
  · exact h.2 place hlt hnames
  · rw [List.getElem?_eq_none hge, List.getElem?_eq_none (hlength ▸ hge)]

instance (a b : String) : Decidable (NamesRecased a b) :=
  decidable_of_iff' _ namesRecased_iff

/-! ## Units in their places -/

theorem silentRulesAreBare_grammar : grammar.SilentRulesAreBare := by
  decide +kernel

theorem laidOut_of_body? {name : String} {w : Window} {m : Match}
    (hm : grammar.body? name w = some m) : m.LaidOut grammar (grammar.referencesIn name) w :=
  bodyMatches?_laidOut silentRulesAreBare_grammar _ name w m hm

/-- The text starts with the beginning of a tag. -/
def OpensTag (cs : List Char) : Prop :=
  ∃ c rest, cs = '<' :: c :: rest ∧ (c = '/' ∨ Reader.isNameStart c = true)

theorem opensTag_of_startTag? {cs rest : List Char} {p : Piece}
    (h : Reader.startTag? cs = some (p, rest)) : OpensTag cs := by
  simp only [Reader.startTag?, Reader.name?, Option.bind_eq_bind, Option.bind_eq_some_iff,
    Prod.exists] at h
  obtain ⟨cs₁, hstart, -, -, ⟨c, cs₂, hchar, -⟩, -⟩ := h
  obtain rfl := Reader.eq_append_of_after? hstart
  cases cs₁ with
  | nil => cases hchar
  | cons d cs₁ =>
    simp only [Reader.char?, Option.ite_none_right_eq_some] at hchar
    exact ⟨d, cs₁, rfl, .inr hchar.1⟩

theorem opensTag_of_endTag? {cs rest : List Char} {p : Piece}
    (h : Reader.endTag? cs = some (p, rest)) : OpensTag cs := by
  obtain ⟨⟨name, rest'⟩, hread, -⟩ := Option.map_eq_some_iff.1 h
  simp only [Reader.endTagName?, Option.bind_eq_bind, Option.bind_eq_some_iff] at hread
  obtain ⟨cs₁, hstart, -⟩ := hread
  obtain rfl := Reader.eq_append_of_after? hstart
  exact ⟨'/', cs₁, rfl, .inl rfl⟩

/-- A unit with a place that belongs to a name starts where a tag is opened. -/
theorem opensTag_of_isNamePlace {w : Window} {m : Match} (hm : grammar.body? "unit" w = some m)
    {place : Nat} (h : IsNamePlace (m.toToken "unit" w) place) : OpensTag w.text := by
  obtain ⟨tag, htag, hname, -⟩ := h
  obtain ⟨name, -, body, hbody, rfl⟩ := exists_kind_of_unit hm
  obtain rfl : tag = body.toToken name w := List.mem_singleton.1 htag
  obtain ⟨d, hd⟩ := depthBound_eq w
  rw [body?, hd] at hbody
  rcases hname with hname | hname <;> obtain rfl : name = _ := hname
  · rcases (agree_startTag (d + 2) w).cases with ⟨hnone, -⟩ | ⟨_, _, -, hread, -⟩
    · rw [hnone] at hbody
      cases hbody
    · exact opensTag_of_startTag? hread
  · rcases (agree_endTag (d + 4) w).cases with ⟨hnone, -⟩ | ⟨_, _, -, hread, -⟩
    · rw [hnone] at hbody
      cases hbody
    · exact opensTag_of_endTag? hread

theorem wellPlaced_unit {w : Window} {m : Match} (hm : grammar.body? "unit" w = some m) :
    (m.toToken "unit" w).WellPlaced grammar :=
  (laidOut_of_body? hm).wellPlaced_toToken

/-- A place that belongs to a name belongs to its unit. -/
theorem IsNamePlace.contains {unit : Token} (hunit : unit.WellPlaced grammar) {place : Nat}
    (h : IsNamePlace unit place) : unit.window.Contains place := by
  obtain ⟨tag, htag, -, row, hrow, -, hplace⟩ := h
  exact (hunit.within_of_child htag).contains
    (((hunit.child htag).within_of_row hrow).contains hplace)

namespace UnitRow

variable {w : Window} {tokens : List Token}

/-- Each token of a row is a unit in the rest of the window. -/
theorem exists_of_mem (h : UnitRow w tokens) {u : Token} (hu : u ∈ tokens) :
    ∃ m n, grammar.body? "unit" (w.drop n) = some m ∧ m.length ≤ (w.drop n).size ∧
      u = m.toToken "unit" (w.drop n) := by
  induction h with
  | nil => cases hu
  | @cons w m tokens hm hpos hle _ ih =>
    rcases List.mem_cons.1 hu with rfl | hu
    · exact ⟨m, 0, hm, hle, rfl⟩
    · obtain ⟨m', n, hm', hle', rfl⟩ := ih hu
      have hdrop : (w.drop m.length).drop n = w.drop (m.length + n) := by
        simp only [Window.drop, Nat.add_assoc]
      rw [hdrop] at hm' hle' ⊢
      exact ⟨m', m.length + n, hm', hle', rfl⟩

/-- The units of a row stand one after the other. -/
theorem pairwise_before (h : UnitRow w tokens) : tokens.Pairwise Token.Before := by
  induction h with
  | nil => exact .nil
  | @cons w m tokens hm _ _ hrow ih =>
    refine .cons (fun u hu => ?_) ih
    obtain ⟨m', n, -, -, rfl⟩ := hrow.exists_of_mem hu
    simp only [Token.Before, Match.toToken, Window.upTo, Window.drop]
    omega

end UnitRow

/-! ## Conditional comments -/

/-- From the window `w` on, which has the units `tokens`, the text `t` differs in the letter case of
names only. -/
structure RecasedFrom (t : IndexedText) (w : Window) (tokens : List Token) : Prop where
  row : UnitRow w tokens
  limit_eq : w.limit = w.input.size
  recased : w.input.Recased t
  eq_elsewhere : ∀ place, w.place ≤ place → (∀ unit ∈ tokens, ¬IsNamePlace unit place) →
    t.chars.toList[place]? = w.input.chars.toList[place]?

/-- In the text no tag is opened: every `<` is followed by `!`. -/
def OpensNoTag (cs : List Char) : Prop :=
  ∀ n < cs.length, cs[n]? = some '<' → cs[n + 1]? = some '!'

instance (cs : List Char) : Decidable (OpensNoTag cs) :=
  inferInstanceAs (Decidable (∀ n < cs.length, _))

/-- Whether characters stand after the first `n` is seen from the first characters. -/
theorem isPrefixOf_drop_congr {cs xs ys : List Char} {n : Nat}
    (h : xs.take (n + cs.length) = ys.take (n + cs.length)) :
    cs.isPrefixOf (xs.drop n) = cs.isPrefixOf (ys.drop n) := by
  have hiff : ∀ zs : List Char, cs.isPrefixOf (zs.drop n) = true ↔
      cs = (zs.take (n + cs.length)).drop n := fun zs => by
    rw [List.isPrefixOf_iff_prefix, List.prefix_iff_eq_take, List.drop_take, Nat.add_sub_cancel_left]
  rw [Bool.eq_iff_iff, hiff, hiff, h]

namespace RecasedFrom

variable {t : IndexedText} {w : Window} {tokens : List Token}

theorem text_eq (h : RecasedFrom t w tokens) :
    w.text = w.input.chars.toList.drop w.place := by
  rw [Window.text_eq, List.take_of_length_le]
  rw [List.length_drop, Array.length_toList, Window.size, h.limit_eq]
  exact Nat.le_refl _

theorem text_on_eq (h : RecasedFrom t w tokens) : (w.on t).text = t.chars.toList.drop w.place := by
  rw [Window.text_eq, List.take_of_length_le]
  · rfl
  · rw [List.length_drop, Array.length_toList, Window.size_on h.recased, Window.size, h.limit_eq,
      ← h.recased.size_eq]
    exact Nat.le_refl _

/-- Where characters are found in which no tag is opened, none of them belongs to a name. -/
theorem not_isNamePlace (h : RecasedFrom t w tokens) {cs : List Char} (hcs : OpensNoTag cs)
    (hstart : cs.map Char.toLower <+: w.text.map Char.toLower) {n : Nat} (hn : n < cs.length)
    {unit : Token} (hunit : unit ∈ tokens) : ¬IsNamePlace unit (w.place + n) := by
  intro hname
  obtain ⟨m, k, hm, -, rfl⟩ := h.row.exists_of_mem hunit
  have hk : w.place + k ≤ w.place + n := (hname.contains (wellPlaced_unit hm)).1
  obtain ⟨c, rest, htext, hc⟩ := opensTag_of_isNamePlace hm hname
  -- the unit starts inside of `cs`, with a `<` that is not followed by `!`
  have hat : ∀ i, (cs.map Char.toLower)[k + i]?.all fun d =>
      some d = ('<' :: c :: rest)[i]?.map Char.toLower := by
    intro i
    rw [← htext, Window.text_drop, List.getElem?_drop, ← List.getElem?_map]
    obtain ⟨more, hmore⟩ := hstart
    by_cases hi : k + i < (cs.map Char.toLower).length
    · rw [← hmore, List.getElem?_append_left hi, List.getElem?_eq_getElem hi]
      simp
    · rw [List.getElem?_eq_none (Nat.le_of_not_lt hi)]
      rfl
  have hless : cs[k]? = some '<' := by
    have hk' : k < cs.length := by omega
    have := hat 0
    rw [Nat.add_zero, List.getElem?_map, List.getElem?_eq_getElem hk'] at this
    rw [List.getElem?_eq_getElem hk']
    simp only [Option.map_some, Option.all_some, decide_eq_true_eq, Option.some.injEq,
      List.getElem?_cons_zero] at this
    exact congrArg some (AsciiCase.eq_of_hasNoCase (by decide) this)
  have hbang := hat 1
  rw [List.getElem?_map, hcs k (by omega) hless] at hbang
  simp only [Option.map_some, Option.all_some, decide_eq_true_eq, Option.some.injEq,
    List.getElem?_cons_succ, List.getElem?_cons_zero] at hbang
  obtain rfl := AsciiCase.eq_of_hasNoCase (by decide) hbang.symm
  revert hc
  decide

/-- Letters after a start in which no tag is opened are found in both texts or in neither. -/
theorem carriesOver_letters (h : RecasedFrom t w tokens) {start letters : List Char}
    (hopens : OpensNoTag (start ++ letters)) (hstart : start <+: w.text) :
    CarriesOver t (fun w => w.literal? letters) (w.drop start.length) := by
  have hletters : letters.isPrefixOf ((w.on t).text.drop start.length) =
      letters.isPrefixOf (w.text.drop start.length) := by
    by_cases hboth : (start ++ letters).map Char.toLower <+: w.text.map Char.toLower
    · refine isPrefixOf_drop_congr (List.ext_getElem? fun n => ?_)
      rw [List.getElem?_take, List.getElem?_take]
      split
      · next hn =>
        rw [h.text_eq, h.text_on_eq, List.getElem?_drop, List.getElem?_drop]
        refine h.eq_elsewhere _ (Nat.le_add_right _ _) fun unit hunit => ?_
        exact h.not_isNamePlace hopens hboth (by rwa [List.length_append]) hunit
      · rfl
    · -- in neither text do the letters stand there, not even in another case
      have hnot : ∀ cs : List Char, cs.map Char.toLower = w.text.map Char.toLower →
          letters.isPrefixOf (cs.drop start.length) = false := fun cs hcs => by
        rw [Bool.eq_false_iff]
        intro hthere
        obtain ⟨more, hmore⟩ := List.isPrefixOf_iff_prefix.1 hthere
        refine hboth ⟨more.map Char.toLower, ?_⟩
        have htake : (cs.take start.length).map Char.toLower = start.map Char.toLower := by
          rw [List.map_take, hcs, ← List.map_take, ← List.prefix_iff_eq_take.1 hstart]
        rw [List.map_append, ← htake, ← hcs, List.append_assoc, ← List.map_append, hmore,
          ← List.map_append, List.take_append_drop]
      rw [hnot _ (Window.text_on h.recased), hnot _ rfl]
  rw [CarriesOver, Window.on_drop]
  simp only [Window.literal?_eq, Window.text_drop]
  rw [hletters]
  split <;> rfl

end RecasedFrom

/-! ## Units of a recased text -/

/-- The rules in which nothing distinguishes letters by their case: all but those of conditional
comments, and what refers to these. -/
def caselessRules : List String :=
  ["comment", "commentBody", "startTag", "selfClose", "endTag", "tagName", "attribute", "attrName",
    "attrValue", "doubleQuoted", "singleQuoted", "unquoted", "text", "_space", "_char"]

theorem ignoreCase_caselessRules : grammar.IgnoreCase caselessRules := by
  decide +kernel

section

variable {t : IndexedText} {w : Window}

theorem body?_carriesOver {name : String} (hname : name ∈ caselessRules) :
    AlwaysCarriesOver t (grammar.body? name) := by
  intro w hw
  rw [CarriesOver, body?, body?, depthBound, depthBound, Window.size_on hw]
  exact bodyMatches?_carriesOver ignoreCase_caselessRules _ hname w hw

theorem rule_carriesOver {rule : Rule} (hrule : rule.ignoresCase = true)
    (hnames : ∀ name ∈ rule.references, name ∈ caselessRules) :
    AlwaysCarriesOver t (Rule.matches? grammar.body? rule) :=
  Rule.carriesOver rule hrule fun name hname => body?_carriesOver (hnames name hname)

theorem rules_carryOver {items : List Rule} (hitems : Rule.allIgnoreCase items = true)
    (hnames : ∀ name ∈ Rule.referencesOf items, name ∈ caselessRules) :
    AlwaysCarriesOver t fun w => Rule.matchesAll? grammar.body? items w :=
  Rule.carriesOver_all items hitems fun name hname => body?_carriesOver (hnames name hname)

/-- What is carried over of a rule is carried over of its name. -/
theorem carriesOver_body {name : String} (rule : Rule) (hrule : grammar.rule? name = some rule)
    (h : CarriesOver t (Rule.matches? grammar.body? rule) w) :
    CarriesOver t (grammar.body? name) w := by
  rw [CarriesOver] at h ⊢
  rw [body?_eq leftRecursionFree_grammar, body?_eq leftRecursionFree_grammar, hrule]
  exact h

/-- A choice of literals matches one of them. -/
theorem exists_of_matches?_literals {call : String → Window → Option Match}
    {starts : List (List Char)} {m : Match}
    (h : Rule.matches? call (.choice .one (starts.map (.literal .one))) w = some m) :
    ∃ start ∈ starts, m.length = start.length ∧ start <+: w.text := by
  rw [Rule.matches?, Quantifier.matches?] at h
  induction starts with
  | nil => simp [Rule.matchesFirst?] at h
  | cons start starts ih =>
    rw [List.map_cons, Rule.matchesFirst?, Rule.matches?, Quantifier.matches?,
      Window.literal?_eq] at h
    split at h
    · obtain ⟨start', hmem, h'⟩ := ih h
      exact ⟨start', List.mem_cons_of_mem _ hmem, h'⟩
    · next heq =>
      cases h
      rw [Option.ite_none_right_eq_some] at heq
      obtain ⟨hstart, heq⟩ := heq
      cases heq
      exact ⟨start, List.mem_cons_self, rfl, List.isPrefixOf_iff_prefix.1 hstart⟩

end

namespace RecasedFrom

variable {t : IndexedText} {w : Window} {tokens : List Token}

/-- Letters after one of several starts, and what follows them. -/
theorem carriesOver_keyword (h : RecasedFrom t w tokens) (starts : List (List Char))
    {letters : List Char} {items : List Rule}
    (hopens : ∀ start ∈ starts, OpensNoTag (start ++ letters)) {m : Match}
    (hm : Rule.matches? grammar.body? (.choice .one (starts.map (.literal .one))) w = some m)
    (hitems : AlwaysCarriesOver t fun w => Rule.matchesAll? grammar.body? items w) :
    CarriesOver t (Rule.matchesAll? grammar.body? (.literal .one letters :: items))
      (w.drop m.length) := by
  obtain ⟨start, hmem, hlength, hstart⟩ := exists_of_matches?_literals hm
  rw [hlength]
  refine carriesOver_cons ?_ fun _ _ => hitems _ h.recased
  have := h.carriesOver_letters (hopens start hmem) hstart
  rw [CarriesOver] at this ⊢
  rwa [Rule.matches?, Rule.matches?, Quantifier.matches?, Quantifier.matches?]

theorem carriesOver_conditionalStart (h : RecasedFrom t w tokens) :
    CarriesOver t (grammar.body? "ieHackStart") w := by
  refine carriesOver_body ieHackStart rfl ?_
  rw [CarriesOver, ieHackStart, Rule.matches?, Rule.matches?]
  refine carriesOver_cons (rule_carriesOver (by decide +kernel) (by decide +kernel) w h.recased)
    fun m hm => carriesOver_cons (carriesOver_reference (carriesOver_body ieCondition rfl ?_))
      fun n _ => rules_carryOver (by decide +kernel) (by decide +kernel) _ h.recased
  rw [CarriesOver, ieCondition, Rule.matches?, Rule.matches?]
  exact h.carriesOver_keyword [['<', '!', '-', '-', '['], ['<', '!', '[']]
    (by decide +kernel) hm (rules_carryOver (by decide +kernel) (by decide +kernel))

theorem carriesOver_conditionalEnd (h : RecasedFrom t w tokens) :
    CarriesOver t (grammar.body? "ieHackEnd") w := by
  refine carriesOver_body ieHackEnd rfl ?_
  rw [CarriesOver, ieHackEnd, Rule.matches?, Rule.matches?]
  refine carriesOver_cons (rule_carriesOver (by decide +kernel) (by decide +kernel) w h.recased)
    fun m hm => ?_
  exact h.carriesOver_keyword [['<', '!', '-', '-', '<', '!', '['],
    ['<', '!', '-', '-', '['], ['<', '!', '[']]
    (by decide +kernel) hm (rules_carryOver (by decide +kernel) (by decide +kernel))

/-- The unit at the start of the window is found at the same place of the recased text. -/
theorem carriesOver_unit (h : RecasedFrom t w tokens) :
    CarriesOver t (grammar.body? "unit") w := by
  refine carriesOver_body unit rfl ?_
  rw [CarriesOver, unit, Rule.matches?, Rule.matches?]
  refine carriesOver_first (carriesOver_reference h.carriesOver_conditionalStart)
    (carriesOver_first (carriesOver_reference h.carriesOver_conditionalEnd) ?_)
  exact Rule.carriesOver_any _ (by decide +kernel)
    (fun name hname => body?_carriesOver (by revert name; decide +kernel)) w h.recased

/-- What is true from a unit on is true from the next one on. -/
theorem drop {m : Match} (hm : grammar.body? "unit" w = some m)
    (h : RecasedFrom t w (m.toToken "unit" w :: tokens)) (hrow : UnitRow (w.drop m.length) tokens) :
    RecasedFrom t (w.drop m.length) tokens := by
  refine ⟨hrow, h.limit_eq, h.recased, fun place hplace hnames => ?_⟩
  rw [Window.place_drop] at hplace
  refine h.eq_elsewhere place (by omega) fun unit hunit => ?_
  rcases List.mem_cons.1 hunit with rfl | hunit
  · intro hname
    have := (hname.contains (wellPlaced_unit hm)).2
    simp only [Match.toToken, Window.upTo] at this
    omega
  · exact hnames unit hunit

/-- **The units of a recased text** are those of the first, place by place. -/
theorem unitRow_on (h : RecasedFrom t w tokens) : UnitRow (w.on t) (tokens.map (Token.on t)) := by
  obtain ⟨hrow, hlimit, hrecased, hsame⟩ := h
  induction hrow with
  | nil hsize => exact .nil ((Window.size_on hrecased).trans hsize)
  | @cons w m tokens hm hpos hle hrow ih =>
    have h : RecasedFrom t w (m.toToken "unit" w :: tokens) :=
      ⟨.cons hm hpos hle hrow, hlimit, hrecased, hsame⟩
    have hunit := h.carriesOver_unit
    rw [CarriesOver, hm, Option.map_some] at hunit
    obtain ⟨-, hlimit', hrecased', hsame'⟩ := h.drop hm hrow
    rw [List.map_cons, Match.on_toToken]
    refine .cons hunit hpos ?_ (ih hlimit' hrecased' hsame')
    rwa [Match.length_on, Window.size_on hrecased]

end RecasedFrom

/-- There is one way only to cut a window into units. -/
theorem UnitRow.unique {w : Window} {tokens tokens' : List Token} (h : UnitRow w tokens)
    (h' : UnitRow w tokens') : tokens = tokens' := by
  induction h generalizing tokens' with
  | nil hsize =>
    cases h' with
    | nil => rfl
    | cons _ hpos hle _ => omega
  | cons hm hpos hle _ ih =>
    cases h' with
    | nil hsize => omega
    | cons hm' _ _ hrow =>
      cases Option.some.inj (hm.symm.trans hm')
      rw [ih hrow]

/-! ## Whole texts -/

/-- The kind of a unit, and the bytes it starts and stops at. -/
def kindAndSpan (unit : Token) : List String × Nat × Nat :=
  (unit.children.map Token.name, unit.start, unit.stop)

theorem kindAndSpan_on {t : IndexedText} {unit : Token} (h : unit.window.input.Recased t) :
    kindAndSpan (unit.on t) = kindAndSpan unit := by
  have hstart : (unit.on t).start = unit.start := by
    rw [Token.start, Token.window_on]
    exact h.offset_eq _
  have hstop : (unit.on t).stop = unit.stop := by
    rw [Token.stop, Token.window_on, Window.stop, Window.limit_on h]
    exact h.offset_eq _
  rw [kindAndSpan, hstart, hstop, Token.children_on, List.map_map]
  refine congrArg (·, _, _) (List.map_congr_left fun c _ => ?_)
  exact Token.name_on c

namespace NamesRecased

variable {a b : String}

/-- The text with letters of its names in another case, as a text with places. -/
abbrev target (b : String) : IndexedText :=
  .ofList b.toList

theorem recased (h : NamesRecased a b) : (IndexedText.ofList a.toList).Recased (target b) := by
  have := congrArg String.toList h.lower_eq
  rwa [AsciiCase.toList_lower, AsciiCase.toList_lower] at this

theorem recasedFrom (h : NamesRecased a b) :
    RecasedFrom (target b) (.whole a.toList) (unitTokens a) :=
  ⟨unitRow_unitTokens a, rfl, h.recased, fun place _ hnames => h.eq_elsewhere place hnames⟩

theorem whole_on (h : NamesRecased a b) :
    (Window.whole a.toList).on (target b) = .whole b.toList := by
  have hlimit := Window.limit_on (w := .whole a.toList) h.recased
  have hsize : (Window.whole a.toList).limit = (target b).size := h.recased.size_eq.symm
  rw [hsize] at hlimit
  simp only [Window.on, Window.whole] at hlimit ⊢
  simp only [hlimit]

/-- **The units of a text with recased names** are those of the text, place by place. -/
theorem unitTokens_eq (h : NamesRecased a b) :
    unitTokens b = (unitTokens a).map (Token.on (target b)) := by
  have hrow := h.recasedFrom.unitRow_on
  rw [h.whole_on] at hrow
  exact (unitRow_unitTokens b).unique hrow

theorem input_of_mem {unit : Token} (hunit : unit ∈ unitTokens a) :
    unit.window.input = .ofList a.toList := by
  obtain ⟨m, n, -, -, rfl⟩ := (unitRow_unitTokens a).exists_of_mem hunit
  rfl

/-- **They are of the same kinds, and take the same bytes.** -/
theorem map_kindAndSpan (h : NamesRecased a b) :
    (unitTokens b).map kindAndSpan = (unitTokens a).map kindAndSpan := by
  rw [h.unitTokens_eq, List.map_map]
  refine List.map_congr_left fun unit hunit => kindAndSpan_on ?_
  rw [input_of_mem hunit]
  exact h.recased

end NamesRecased

end MarkupFilter.Markup
