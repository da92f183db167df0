import MarkupFilter.Policy.Baseline
import MarkupFilter.Proofs.Pattern.Matching
import MarkupFilter.Proofs.Pattern.Searching
import MarkupFilter.Proofs.Policy.BaselineTables
import MarkupFilter.Proofs.Policy.EncodedValues
import MarkupFilter.Proofs.Text.LetterCase
import MarkupFilter.Proofs.Text.Spellings

/-!
# Addresses that run scripts

The baseline policy allows no address that runs a script, in whatever way its scheme is spelled:
browsers ignore what stands before it and the tabs and line breaks in it, they read references, and
letter case does not count. Reading the references of a value undoes the spelling, decoding a payload
leaves the scheme in front of it, and the pattern of the rule allows for the rest.

## Main definitions

* `ScriptScheme.Runs` — characters are the scheme of an address that runs a script.
* `ScriptScheme.expression` — what the pattern of the rule has for schemes.

## Main results

* `ScriptScheme.exists_matches` — the pattern of the rule matches where a script is run.
* `scriptAddress_denied` — addresses that run scripts are disabled.
* `scriptAddress_hidden` — but two of the names of HTML are not read, and they hide a script.
-/

set_option autoImplicit false

namespace MarkupFilter

open Pattern (CharClass Expression Place)

namespace ScriptScheme

/-! ## Schemes -/

/-- A tab, a line feed or a carriage return, which browsers leave out of an address. -/
def isLeftOut (c : Char) : Bool :=
  c == '\t' || c == '\n' || c == '\r'

/-- The characters as browsers take them: without those that are left out, and in small letters. -/
def plain (cs : List Char) : List Char :=
  (cs.filter fun c => !isLeftOut c).map Char.toLower

/-- The characters are the scheme of an address that runs a script, with its colon. Control
characters and spaces may stand before it. -/
def Runs (cs : List Char) : Prop :=
  ∃ lead word, cs = lead ++ (word ++ [':']) ∧ (∀ c ∈ lead, c.toNat ≤ 0x20) ∧
    (plain word = "javascript".toList ∨ plain word = "vbscript".toList)

/-! ## The pattern -/

/-- A letter in either case; the long s is a case of the letter s. -/
def letter (c : Char) : CharClass :=
  .ofChars (if c = 's' then ['s', 'S', 'ſ'] else [c, c.toUpper])

/-- The blanks between letters. -/
def blanks : CharClass :=
  .ofRanges Blank.ranges

/-- A word with blanks between its letters. -/
def spacedWord (word : List Char) : Expression :=
  .concat (Expression.spaced blanks (word.map letter)).tail

/-- What the pattern of the rule has for schemes. -/
def expression : Expression :=
  .concat (.anchor .textStart :: .times (.chars (.range 0 0x20)) 0 none ::
    .either (["java".toList, "vb".toList, "live".toList].map spacedWord) ::
    (Expression.spaced blanks ("script".toList.map letter) ++
      [.times (.chars blanks) 0 none, .literal [':']]))

/-- The letters of the schemes. -/
def letters : List Char :=
  "javbscript".toList

theorem contains_letter {c d : Char} (hc : c ∈ letters) (hd : d.toLower = c) :
    (letter c).contains d = true := by
  rcases AsciiCase.mem_capitals_or d with hcapital | hsmall
  · have hall : ∀ d ∈ AsciiCase.capitals, ∀ c ∈ letters, d.toLower = c →
        (letter c).contains d = true := by decide +kernel
    exact hall d hcapital c hc hd
  · have hall : ∀ c ∈ letters, (letter c).contains c = true := by decide +kernel
    rw [← hsmall, hd]
    exact hall c hc

theorem contains_blanks {c : Char} (hc : isLeftOut c = true) : blanks.contains c = true := by
  simp only [isLeftOut, Bool.or_eq_true, beq_iff_eq] at hc
  rcases hc with (rfl | rfl) | rfl <;> decide +kernel

theorem toNat_le_of_isLeftOut {c : Char} (hc : isLeftOut c = true) : c.toNat ≤ 0x20 := by
  simp only [isLeftOut, Bool.or_eq_true, beq_iff_eq] at hc
  rcases hc with (rfl | rfl) | rfl <;> decide

/-! ## Words -/

/-- The first letter of a word, and what is left out before it. -/
theorem plain_eq_cons {cs rest : List Char} {c : Char} (h : plain cs = c :: rest) :
    ∃ before d after, cs = before ++ d :: after ∧ (∀ b ∈ before, isLeftOut b = true) ∧
      d.toLower = c ∧ plain after = rest := by
  obtain ⟨d, left, hfilter, hd, hleft⟩ := List.map_eq_cons_iff.1 h
  obtain ⟨before, after, rfl, hbefore, -, rfl⟩ := List.filter_eq_cons_iff.1 hfilter
  exact ⟨before, d, after, rfl, fun b hb => by simpa using hbefore b hb, hd, hleft⟩

/-- A part of a scheme is a word with gaps. -/
theorem exists_isSpaced {word rest cs : List Char} (hword : ∀ c ∈ word, c ∈ letters)
    (h : plain cs = word ++ rest) :
    ∃ first after, cs = first ++ after ∧
      Expression.IsSpaced blanks (word.map letter) first ∧ plain after = rest := by
  induction word generalizing cs with
  | nil => exact ⟨[], cs, rfl, rfl, h⟩
  | cons c word ih =>
    obtain ⟨before, d, after, rfl, hbefore, hd, hafter⟩ := plain_eq_cons h
    obtain ⟨first, last, rfl, hfirst, hlast⟩ :=
      ih (fun c hc => hword c (List.mem_cons_of_mem _ hc)) hafter
    refine ⟨before ++ d :: first, last, by simp, ?_, hlast⟩
    exact ⟨before, d, first, rfl, fun b hb => contains_blanks (hbefore b hb),
      contains_letter (hword c (List.mem_cons_self ..)) hd, hfirst⟩

theorem matches_spacedWord {text : List Char} {i : Nat} {c d : Char} {word cs rest : List Char}
    (h : text.drop i = d :: (cs ++ rest)) (hd : (letter c).contains d = true)
    (hcs : Expression.IsSpaced blanks (word.map letter) cs) :
    Expression.Matches text (spacedWord (c :: word)) i (i + 1 + cs.length) := by
  have hrest : text.drop (i + 1) = cs ++ rest := Expression.drop_add_of_append [d] h
  have hlt : i < text.length := Expression.lt_length_of_drop h
  have hend : i + 1 + cs.length ≤ text.length := by
    have hlength := congrArg List.length hrest
    rw [List.length_drop, List.length_append] at hlength
    omega
  have hnil : Expression.Matches text (.concat []) (i + 1 + cs.length) (i + 1 + cs.length) :=
    .concat_nil _ hend
  have hspaced := Expression.matches_spaced hcs hlt hrest hnil
  rw [List.append_nil] at hspaced
  exact .concat_cons _ _ i (i + 1) _ (Expression.matches_chars h hd) hspaced

/-- The rest of the pattern, from the letters of the last word on. -/
theorem exists_matches_script {text : List Char} {i : Nat} {cs rest : List Char}
    (hcs : plain cs = "script".toList) (hi : i ≤ text.length)
    (h : text.drop i = cs ++ ':' :: rest) :
    ∃ j, Expression.Matches text (.concat (Expression.spaced blanks ("script".toList.map letter) ++
      [.times (.chars blanks) 0 none, .literal [':']])) i j := by
  have hword : plain cs = "script".toList ++ [] := hcs.trans (List.append_nil _).symm
  obtain ⟨first, gap, rfl, hfirst, hgap⟩ := exists_isSpaced (by decide) hword
  have hblanks : ∀ b ∈ gap, blanks.contains b = true := by
    intro b hb
    refine contains_blanks (Bool.of_not_eq_false fun hb' => ?_)
    have hmem : b.toLower ∈ plain gap :=
      List.mem_map_of_mem (List.mem_filter.2 ⟨hb, by rw [hb']; rfl⟩)
    rw [hgap] at hmem
    cases hmem
  rw [List.append_assoc] at h
  have hafter : text.drop (i + first.length) = gap ++ ':' :: rest :=
    Expression.drop_add_of_append first h
  have hcolon : text.drop (i + first.length + gap.length) = ':' :: rest :=
    Expression.drop_add_of_append gap hafter
  have hlt := Expression.lt_length_of_drop hcolon
  have hmatch : Expression.Matches text (.concat [.times (.chars blanks) 0 none, .literal [':']])
      (i + first.length) (i + first.length + gap.length + 1) := by
    refine .concat_cons _ _ _ _ _ (Expression.matches_gap (by omega) hafter hblanks) ?_
    refine .concat_cons _ _ _ _ _ (.literal [':'] _ (Nat.le_of_lt hlt) ?_) (.concat_nil _ hlt)
    rw [hcolon]
    exact ⟨rest, rfl⟩
  exact ⟨_, Expression.matches_spaced hfirst hi h hmatch⟩

/-- **The pattern of the rule matches where a script is run.** -/
theorem exists_matches {cs : List Char} (hcs : Runs cs) (rest : List Char) :
    ∃ j, Expression.Matches (cs ++ rest) expression 0 j := by
  obtain ⟨lead, word, rfl, hlead, hword⟩ := hcs
  obtain ⟨c, start, hstart, hletters, hplain⟩ : ∃ c start,
      c :: start ∈ ["java".toList, "vb".toList, "live".toList] ∧ (∀ d ∈ c :: start, d ∈ letters) ∧
        plain word = (c :: start) ++ "script".toList := by
    rcases hword with hjava | hvb
    · exact ⟨'j', ['a', 'v', 'a'], by decide, by decide, hjava⟩
    · exact ⟨'v', ['b'], by decide, by decide, hvb⟩
  obtain ⟨before, d, after, rfl, hbefore, hd, hafter⟩ := plain_eq_cons hplain
  obtain ⟨first, last, rfl, hfirst, hlast⟩ :=
    exists_isSpaced (fun e he => hletters e (List.mem_cons_of_mem _ he)) hafter
  let text := lead ++ ((before ++ d :: (first ++ last)) ++ [':']) ++ rest
  have htext : text.drop 0 = (lead ++ before) ++ d :: (first ++ (last ++ ':' :: rest)) := by
    show text = _
    simp [text]
  have hgap : ∀ b ∈ lead ++ before, (CharClass.range 0 0x20).contains b = true := by
    intro b hb
    rw [CharClass.contains_range]
    rcases List.mem_append.1 hb with hmem | hmem
    · simpa using hlead b hmem
    · simpa using toNat_le_of_isLeftOut (hbefore b hmem)
  have hfrom := Expression.drop_add_of_append (lead ++ before) htext
  have hmatch := matches_spacedWord hfrom (contains_letter (hletters c (List.mem_cons_self ..)) hd)
    hfirst
  have hscript : text.drop (0 + (lead ++ before).length + 1 + first.length) =
      last ++ ':' :: rest :=
    Expression.drop_add_of_append first (Expression.drop_add_of_append [d] hfrom)
  obtain ⟨j, htail⟩ := exists_matches_script hlast hmatch.le.2 hscript
  refine ⟨j, .concat_cons _ _ 0 0 j (.anchor _ 0 (Nat.zero_le _) rfl) ?_⟩
  refine .concat_cons _ _ 0 _ j (Expression.matches_gap (Nat.zero_le _) htext hgap) ?_
  exact .concat_cons _ _ _ _ j
    (.either _ _ _ _ (List.mem_map_of_mem hstart) hmatch) htail

/-! ## Rules -/

/-- The first of some alternatives. -/
def firstAlternative? : Expression → Option Expression
  | .either (e :: _) => some e
  | _ => none

/-- The rule denies script schemes and has nothing that could allow them. -/
def isDeniedBy (rule : AttributeRule) : Bool :=
  rule.listeners.isEmpty && rule.allowed.isEmpty &&
    rule.denied.any fun p => (firstAlternative? p.expression).any (·.same expression)

/-- A rule that denies script schemes accepts no text that starts with one. -/
theorem acceptsText_of_isDeniedBy {rule : AttributeRule} (h : isDeniedBy rule = true)
    {cs : List Char} (hcs : Runs cs) {text : String} (htext : cs <+: text.toList) :
    rule.acceptsText text = false := by
  simp only [isDeniedBy, Bool.and_eq_true, List.any_eq_true] at h
  obtain ⟨⟨-, hallowed⟩, p, hp, hfirst⟩ := h
  have hoccurs : p.occursIn text = true := by
    obtain ⟨rest, hrest⟩ := htext
    obtain ⟨j, hmatch⟩ := exists_matches hcs rest
    rw [hrest] at hmatch
    cases hexpression : p.expression with
    | either es =>
      cases es with
      | nil => simp [hexpression, firstAlternative?] at hfirst
      | cons e es =>
        rw [hexpression] at hfirst
        obtain rfl : e = expression := Expression.eq_of_same _ _ hfirst
        refine Pattern.occursIn_of_matches p (i := 0) (j := j) ?_
        rw [hexpression]
        exact .either _ _ 0 j (List.mem_cons_self ..) hmatch
    | _ => simp [hexpression, firstAlternative?] at hfirst
  rw [AttributeRule.acceptsText, if_pos hallowed, List.any_eq_true.2 ⟨p, hp, hoccurs⟩]
  rfl

/-- The attributes for addresses have rules that deny script schemes. -/
theorem isDeniedBy_baseline : ∀ name ∈ Policy.addressAttributes,
    (Policy.baseline.attributeRule? name).any isDeniedBy = true := by
  rw [Policy.baseline_eq]
  decide +kernel

/-! ## Values -/

/-- There is no comma in a scheme, so it belongs to what stands before a payload. -/
theorem comma_not_mem {cs : List Char} (hcs : Runs cs) : ',' ∉ cs := by
  obtain ⟨lead, word, rfl, hlead, hword⟩ := hcs
  intro hmem
  rcases List.mem_append.1 hmem with hmem | hmem
  · exact absurd (hlead ',' hmem) (by decide)
  · rcases List.mem_append.1 hmem with hmem | hmem
    · have hplain : ','.toLower ∈ plain word :=
        List.mem_map_of_mem (List.mem_filter.2 ⟨hmem, by decide⟩)
      rcases hword with heq | heq <;> rw [heq] at hplain <;> exact absurd hplain (by decide)
    · exact absurd hmem (by decide)

/-- Decoding a payload leaves in place what stands before it. -/
theorem isPrefix_effectiveValue {cs : List Char} (hcomma : ',' ∉ cs) (decodesBase64 : Bool)
    {value : String} (h : cs <+: (CharacterReference.unescape value).toList) :
    cs <+: (effectiveValue decodesBase64 value).toList := by
  unfold effectiveValue
  dsimp only
  split
  · cases hreveal : DataUrl.reveal? (CharacterReference.unescape value) with
    | none => exact h
    | some text => exact DataUrl.isPrefix_reveal? hcomma h hreveal
  · exact h

end ScriptScheme

/-- **Addresses that run scripts are disabled** by the baseline policy, however their schemes are
spelled: with tabs and line breaks in them, in any letter case, and with any of their characters
written as references that are read. What follows the scheme does not count. -/
theorem scriptAddress_denied {cs rest value : List Char} (hcs : ScriptScheme.Runs cs)
    (hvalue : CharacterReference.Spells CharacterReference.named rest cs value) {name : String}
    (hname : name ∈ Policy.addressAttributes) {a : Attribute}
    (ha : a.value = some (String.ofList value)) (owner : String) :
    (decideAttribute (Policy.baseline.attributeRule? name) a owner).enabled = false := by
  have hdenied := ScriptScheme.isDeniedBy_baseline name hname
  cases hrule : Policy.baseline.attributeRule? name with
  | none =>
    rw [hrule] at hdenied
    cases hdenied
  | some rule =>
    rw [hrule, Option.any_some] at hdenied
    have hlisteners : rule.listeners = [] := by
      simp only [ScriptScheme.isDeniedBy, Bool.and_eq_true, List.isEmpty_iff] at hdenied
      exact hdenied.1.1
    have hread : cs <+: (CharacterReference.unescape (String.ofList value)).toList := by
      rw [CharacterReference.unescape, String.toList_ofList, String.toList_ofList,
        CharacterReference.decodeFrom_of_spells (fun _ h => h) hvalue]
      exact List.prefix_append ..
    have htext := ScriptScheme.isPrefix_effectiveValue (ScriptScheme.comma_not_mem hcs)
      rule.decodesBase64 hread
    rw [enabled_decideAttribute hlisteners, ha, Option.getD_some,
      ScriptScheme.acceptsText_of_isDeniedBy hdenied hcs htext, Bool.and_false]

/-- A scheme with a space before it, a line feed in it and references of three kinds. -/
theorem scriptAddress_denied_image : ScriptScheme.Runs (' ' :: "java\nscript:".toList) ∧
    (decideAttribute (Policy.baseline.attributeRule? "src")
      (.ofValue "src" " &#x006A;ava\n&#115cript&colon;alert(1)") "img").enabled = false := by
  have hruns : ScriptScheme.Runs (' ' :: "java\nscript:".toList) :=
    ⟨[' '], "java\nscript".toList, rfl, by decide, .inl (by decide +kernel)⟩
  have hspells : CharacterReference.Spells CharacterReference.named "alert(1)".toList
      (' ' :: "java\nscript:".toList) " &#x006A;ava\n&#115cript&colon;alert(1)".toList := by
    refine .plain ' ' _ _ (by decide) ?_
    refine .reference 'j' "#x006A;".toList _ _ (.hexadecimal 'x' "006A".toList [';'] (.inl rfl)
      ⟨by decide, by decide, by decide⟩ .semicolon) ?_
    refine .plain 'a' _ _ (by decide) (.plain 'v' _ _ (by decide) (.plain 'a' _ _ (by decide) ?_))
    refine .plain '\n' _ _ (by decide) ?_
    refine .reference 's' "#115".toList _ _ (.decimal "115".toList [] ⟨by decide, by decide, by decide⟩
      (.nothing (by rintro d ⟨⟩; decide))) ?_
    refine .plain 'c' _ _ (by decide) (.plain 'r' _ _ (by decide) (.plain 'i' _ _ (by decide) ?_))
    refine .plain 'p' _ _ (by decide) (.plain 't' _ _ (by decide) ?_)
    exact .reference ':' "colon;".toList _ _ (.name "colon".toList (by decide)) .nil
  exact ⟨hruns, scriptAddress_denied hruns hspells (by decide) rfl "img"⟩

/-- The names by which HTML knows the characters of schemes that are not letters. -/
def CharacterReference.htmlNames : List (List Char × Char) :=
  [("colon".toList, ':'), ("Tab".toList, '\t'), ("NewLine".toList, '\n')]

/-- A tab that is written by its name in HTML is not read, so it hides the scheme it stands in. -/
theorem scriptAddress_hidden : ScriptScheme.Runs "java\tscript:".toList ∧
    CharacterReference.Spells CharacterReference.htmlNames "alert(1)".toList
      "java\tscript:".toList "java&Tab;script:alert(1)".toList ∧
    (decideAttribute (Policy.baseline.attributeRule? "href")
      (.ofValue "href" "java&Tab;script:alert(1)") "a").enabled = true := by
  refine ⟨⟨[], "java\tscript".toList, rfl, by decide, .inl (by decide +kernel)⟩, ?_, by decide +kernel⟩
  refine .plain 'j' _ _ (by decide) (.plain 'a' _ _ (by decide) (.plain 'v' _ _ (by decide) ?_))
  refine .plain 'a' _ _ (by decide) ?_
  refine .reference '\t' "Tab;".toList _ _ (.name "Tab".toList (by decide)) ?_
  refine .plain 's' _ _ (by decide) (.plain 'c' _ _ (by decide) (.plain 'r' _ _ (by decide) ?_))
  refine .plain 'i' _ _ (by decide) (.plain 'p' _ _ (by decide) (.plain 't' _ _ (by decide) ?_))
  exact .plain ':' _ _ (by decide) .nil

end MarkupFilter
