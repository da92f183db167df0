import MarkupFilter.Proofs.Markup.Agreement

/-!
# The rules of markup agree with the reader

Each rule of the markup grammar agrees with the function of the reader that reads the same kind of
text, as soon as references are followed deep enough.

## Main results

* `agree_startTag`, `agree_endTag`, `agree_comment`, `agree_conditionalStart`,
  `agree_conditionalEnd`, `agree_text` — the six kinds of units.
* `agree_unit` — a unit stands for the piece that is read.
-/

set_option autoImplicit false

namespace MarkupFilter.Markup

open Grammar

/-- The match of a named rule is the match of its body, with references followed one step less. -/
theorem bodyMatches?_succ {name : String} {rule : Rule} (h : grammar.rule? name = some rule)
    (d : Nat) (w : Window) :
    grammar.bodyMatches? (d + 1) name w = Rule.matches? (grammar.bodyMatches? d) rule w := by
  rw [bodyMatches?, h, Option.bind_some]

/-- A match and what was read, if the match is seen as the token `t` of any rule. -/
def StandsFor {α : Type} (read : Token → α) (m : Match) (a : α) : Prop :=
  ∀ t : Token, t.children = m.tokens → read t = a

/-! ## Characters -/

section

variable (d : Nat) (w : Window)

theorem contains_nameStart (c : Char) :
    CharSet.contains ⟨[('a', 'z'), ('A', 'Z')], false⟩ c = Reader.isNameStart c := by
  simp [CharSet.contains, Reader.isNameStart]

theorem contains_nameChar (c : Char) :
    CharSet.contains ⟨[('a', 'z'), ('A', 'Z'), ('0', '9')] ++
      [':', '_', '.', '-'].map fun c => (c, c), false⟩ c = Reader.isNameChar c := by
  rw [CharSet.contains, List.any_append, any_singles, Bool.bne_false, Reader.isNameChar,
    Reader.isNameStart]
  simp [Bool.or_assoc]

theorem contains_any (c : Char) :
    CharSet.contains ⟨[('\x00', Char.ofNat 0x10FFFF)], false⟩ c = true := by
  have h : c.val.toNat ≤ 0x10FFFF := by
    have := c.valid
    simp only [UInt32.isValidChar, Nat.isValidChar] at this
    omega
  simp only [CharSet.contains, List.any_cons, List.any_nil, Bool.or_false, Bool.bne_false,
    Bool.and_eq_true, decide_eq_true_iff, Char.le_def, UInt32.le_iff_toNat_le]
  exact ⟨Nat.zero_le _, h⟩

theorem agree_blanks :
    Agree (IsRow w) w
      (Rule.matches? (grammar.bodyMatches? (d + 1)) (ref "_space" .zeroOrMore) w)
      (some (w.text.takeWhile Reader.isBlank, Reader.skipBlanks w.text)) := by
  rw [ref, Rule.matches?]
  refine agree_zeroOrMore (p := Reader.isBlank) (fun w => ?_) w
  have hspace : grammar.bodyMatches? (d + 1) "_space" w = w.char? Reader.isBlank := by
    rw [bodyMatches?_succ rfl, space, oneOf, Rule.matches?, Quantifier.matches?]
    congr 1
    exact funext fun c => contains_oneOf blanks c
  rw [hspace]
  cases w.char? Reader.isBlank with
  | none => rfl
  | some m => simp [Match.named, show isSilent "_space" = true from rfl]

theorem agree_noneOf_zeroOrMore (singles : List Char) :
    Agree (IsRow w) w (Rule.matches? (grammar.bodyMatches? d) (noneOf singles .zeroOrMore) w)
      (some (w.text.takeWhile fun c => !singles.contains c,
        w.text.dropWhile fun c => !singles.contains c)) := by
  rw [noneOf, Rule.matches?]
  refine agree_zeroOrMore (fun w => ?_) w
  congr 1
  exact funext fun c => contains_noneOf singles c

theorem agree_noneOf_oneOrMore (singles : List Char) :
    Agree (IsRow w) w (Rule.matches? (grammar.bodyMatches? d) (noneOf singles .oneOrMore) w)
      (Reader.row? (fun c => !singles.contains c) w.text) := by
  rw [noneOf, Rule.matches?]
  refine agree_oneOrMore (fun w => ?_) w
  congr 1
  exact funext fun c => contains_noneOf singles c

/-! ## Names and values -/

theorem agree_tagName :
    Agree (IsRow w) w (grammar.bodyMatches? (d + 1) "tagName" w) (Reader.name? w.text) := by
  rw [bodyMatches?_succ rfl, tagName]
  have hstart : Agree (fun m c => IsRow w m [c]) w
      (Rule.matches? (grammar.bodyMatches? d) (oneOf [] [('a', 'z'), ('A', 'Z')]) w)
      (Reader.char? Reader.isNameStart w.text) := by
    rw [oneOf, Rule.matches?, Quantifier.matches?]
    rw [show CharSet.contains ⟨[('a', 'z'), ('A', 'Z')] ++ [].map fun c => (c, c), false⟩ =
      Reader.isNameStart from funext contains_nameStart]
    exact agree_char _ w
  refine Agree.sequence (hstart.cons fun m c _ hm => Agree.last ?_)
  rw [oneOf, Rule.matches?]
  refine (agree_zeroOrMore (p := Reader.isNameChar) (fun w => ?_) _).map (fun cs => c :: cs)
    fun n cs _ hn => hm.append hn
  rw [show CharSet.contains _ = Reader.isNameChar from funext contains_nameChar]

/-- The match of a value is one token, named for the kind of quotes. -/
def IsValue (m : Match) (v : List Char × Option Char) : Prop :=
  ∃ t : Token, m.tokens = [t] ∧ t.text = String.ofList v.1 ∧ Piece.quoteOf t.name = v.2

theorem isValue_of_isToken {name : String} {w : Window} {m : Match} {cs : List Char}
    (h : IsToken name w (IsRow w) m cs) : IsValue m (cs, Piece.quoteOf name) := by
  obtain ⟨body, hbody, rfl⟩ := h
  exact ⟨_, rfl, hbody.text_toToken name, rfl⟩

/-- A value within quotes, of which `name` is the rule for what is inside. -/
theorem agree_quotedValue {quote : Char} (name : String)
    (hrule : grammar.rule? name = some (noneOf [quote] .zeroOrMore))
    (hsilent : isSilent name = false) (hquote : Piece.quoteOf name = some quote) :
    Agree IsValue w
      (Rule.matches? (grammar.bodyMatches? (d + 1))
        (.sequence .one [.literal .one [quote], ref name, .literal .one [quote]]) w)
      (Reader.quotedValue? quote w.text) := by
  have hbody : ∀ w, Agree (IsRow w) w (grammar.bodyMatches? (d + 1) name w)
      (some (w.text.takeWhile (· != quote), w.text.dropWhile (· != quote))) := by
    intro w
    rw [bodyMatches?_succ hrule]
    have hp : (fun c => !([quote].contains c)) = (· != quote) := funext fun c => by
      rw [List.contains_cons, List.contains_nil, Bool.or_false, bne]
    have := agree_noneOf_zeroOrMore d w [quote]
    rwa [hp] at this
  refine Agree.sequence (Agree.cons_literal fun _ _ => ?_)
  refine Agree.cons_some (agree_reference hsilent (hbody _)) fun m _ hm hrest => ?_
  rw [← hrest]
  refine Agree.cons_literal fun _ _ => Agree.nil ?_
  obtain ⟨t, ht, htext, hname⟩ := isValue_of_isToken hm
  exact ⟨t, by simp [Match.append, ht, Match.empty], htext, by rw [hname, hquote]⟩

theorem agree_bareValue :
    Agree (IsRow w) w (grammar.bodyMatches? (d + 1) "unquoted" w) (Reader.bareValue? w.text) := by
  rw [bodyMatches?_succ rfl, unquoted]
  have hstart : Agree (fun m c => IsRow w m [c]) w
      (Rule.matches? (grammar.bodyMatches? d)
        (noneOf (blanks ++ ['>', '"', '\'', '`', '=', '<'])) w)
      (Reader.char? Reader.isBareStart w.text) := by
    rw [noneOf, Rule.matches?, Quantifier.matches?]
    rw [show CharSet.contains _ = Reader.isBareStart from funext (contains_noneOf _)]
    exact agree_char _ w
  refine Agree.sequence (hstart.cons fun m c _ hm => Agree.last ?_)
  exact (agree_noneOf_zeroOrMore d _ (blanks ++ ['>', '<'])).map (fun cs => c :: cs)
    fun n cs _ hn => hm.append hn

theorem agree_attrValue :
    Agree IsValue w (grammar.bodyMatches? (d + 2) "attrValue" w) (Reader.value? w.text) := by
  rw [bodyMatches?_succ rfl, attrValue, Rule.matches?, Quantifier.matches?]
  refine (agree_quotedValue d w "doubleQuoted" rfl rfl rfl).first ?_
  refine (agree_quotedValue d w "singleQuoted" rfl rfl rfl).first ?_
  refine Agree.last_first ?_
  exact (agree_reference rfl (agree_bareValue d w)).map (fun cs => (cs, none))
    fun m cs _ hm => isValue_of_isToken hm

/-! ## Attributes -/

/-- The match of what is assigned to an attribute is one token with the token of the value. -/
def IsAssigned (m : Match) (v : List Char × Option Char) : Prop :=
  ∃ body : Match, IsValue body v ∧ ∃ t : Token, m.tokens = [t] ∧ t.name = "attrValue" ∧
    t.children = body.tokens

theorem isAssigned_of_isToken {m : Match} {v : List Char × Option Char}
    (h : IsToken "attrValue" w IsValue m v) : IsAssigned m v := by
  obtain ⟨body, hbody, rfl⟩ := h
  exact ⟨body, hbody, body.toToken "attrValue" w, rfl, rfl, rfl⟩

theorem agree_assigned :
    Agree IsAssigned w
      (Rule.matchesAll? (grammar.bodyMatches? (d + 2)) [ref "_space" .zeroOrMore, lit "=",
        ref "_space" .zeroOrMore, ref "attrValue"] w)
      (Reader.assigned? w.text) := by
  refine Agree.cons_some (agree_blanks (d + 1) w) fun m₁ _ hm₁ hrest => ?_
  rw [Reader.assigned?, ← hrest]
  refine Agree.cons_literal fun _ _ => ?_
  refine Agree.cons_some (agree_blanks (d + 1) _) fun m₂ _ hm₂ hrest => ?_
  rw [← hrest]
  refine Agree.last ((agree_reference rfl (agree_attrValue d _)).imp fun m v _ hm => ?_)
  obtain ⟨body, hbody, t, ht, hname⟩ := isAssigned_of_isToken _ hm
  exact ⟨body, hbody, t, by simp only [Match.append, hm₁.1, hm₂.1, List.nil_append, ht], hname⟩

theorem attributeOf_name_only {t name : Token} (h : t.children = [name])
    (hname : name.name = "attrName") : Piece.attributeOf t = { name := name.text } := by
  simp [Piece.attributeOf, Token.childText, Token.child?, h, hname]

theorem attributeOf_name_value {t name value v : Token} (h : t.children = [name, value])
    (hname : name.name = "attrName") (hvalue : value.name = "attrValue")
    (hchildren : value.children = [v]) :
    Piece.attributeOf t =
      { name := name.text, value := some v.text, quote := Piece.quoteOf v.name } := by
  simp [Piece.attributeOf, Token.childText, Token.child?, h, hname, hvalue, hchildren]

theorem agree_attribute :
    Agree (StandsFor Piece.attributeOf) w (grammar.bodyMatches? (d + 3) "attribute" w)
      (Reader.attribute? w.text) := by
  rw [bodyMatches?_succ rfl, attr]
  have hname : Agree (IsRow w) w (grammar.bodyMatches? (d + 2) "attrName" w)
      (Reader.row? Reader.isAttributeNameChar w.text) := by
    rw [bodyMatches?_succ rfl]
    exact agree_noneOf_oneOrMore (d + 1) w _
  refine Agree.sequence ((agree_reference rfl hname).cons fun m₁ name _ hm₁ => Agree.last ?_)
  obtain ⟨body, hbody, rfl⟩ := hm₁
  have htext := hbody.text_toToken "attrName"
  rw [Rule.matches?, Quantifier.matches?]
  rcases (agree_assigned d (w.drop body.length)).cases with
    ⟨hm, hr⟩ | ⟨m, ⟨value, quote⟩, hm, hr, hle, hvalue⟩
  · refine Agree.of_some .empty (w.drop body.length).text (by rw [hm]; rfl) (by simp only [hr]; rfl)
      (Nat.zero_le _) (by simp [Match.empty]) fun t ht => ?_
    rw [attributeOf_name_only ht rfl, htext]
  · refine Agree.of_some m _ (by rw [hm]; rfl) (by simp only [hr]; rfl) hle rfl fun t ht => ?_
    obtain ⟨inner, ⟨v, hv, hvtext, hvquote⟩, token, htokens, htoken, hchildren⟩ := hvalue
    rw [Match.append, htokens] at ht
    rw [attributeOf_name_value ht rfl htoken (hchildren.trans hv), htext, hvtext]
    congr 1

/-- Every token is one of an attribute, and together they stand for the attributes read. -/
def AreAttributes (m : Match) (as : List Attribute) : Prop :=
  (∀ t ∈ m.tokens, t.name = "attribute") ∧ m.tokens.map Piece.attributeOf = as

/-- One attribute with the blanks before it. -/
theorem agree_nextAttribute :
    Agree (fun m a => AreAttributes m [a]) w
      (Rule.matchesAll? (grammar.bodyMatches? (d + 3)) [ref "_space" .zeroOrMore, ref "attribute"] w)
      (Reader.attribute? (Reader.skipBlanks w.text)) := by
  refine Agree.cons_some (agree_blanks (d + 2) w) fun m₁ _ hm₁ hrest => ?_
  rw [← hrest]
  refine Agree.last ((agree_reference rfl (agree_attribute d _)).imp fun m a _ hm => ?_)
  obtain ⟨body, hbody, rfl⟩ := hm
  simp only [AreAttributes, Match.append, hm₁.1, List.nil_append, List.mem_singleton, forall_eq,
    List.map_cons, List.map_nil]
  exact ⟨rfl, by rw [hbody _ rfl]⟩

/-- The loop over the attributes of a start tag. The induction is on the fuel, of which a character
more is left after each attribute than there are characters. -/
theorem agree_attributesFrom (fuel : Nat) (w : Window) (h : w.size < fuel) :
    Agree AreAttributes w
      (some (repeated (Rule.matchesAll? (grammar.bodyMatches? (d + 3))
        [ref "_space" .zeroOrMore, ref "attribute"]) fuel w).found)
      (some (Reader.attributes w.text)) := by
  induction fuel generalizing w with
  | zero => omega
  | succ fuel ih =>
    rw [repeated]
    rcases (agree_nextAttribute d w).cases with ⟨hm, hr⟩ | ⟨m, a, hm, hr, hle, hok⟩
    · rw [hm, Reader.attributes_of_none hr]
      exact ⟨Nat.zero_le _, by simp [Match.empty], by simp [Match.empty], rfl⟩
    · have hpos : 0 < m.length := by
        have h₁ := Reader.length_lt_of_attribute? hr
        have h₂ := Reader.length_dropWhile_le Reader.isBlank w.text
        rw [Window.text_drop, List.length_drop] at h₁
        unfold Reader.skipBlanks at h₁
        omega
      have hsize : (w.drop m.length).size < fuel := by rw [Window.size_drop]; omega
      rw [hm, Reader.attributes_of_some hr]
      simp only [Nat.ne_of_gt hpos, if_false]
      obtain ⟨hle', hrest, hnames, hall⟩ := ih (w.drop m.length) hsize
      refine ⟨?_, ?_, ?_, ?_⟩
      · rw [Window.size_drop] at hle'
        simp only [Match.append]
        omega
      · rw [← hrest]
        simp only [Match.append, Window.text_drop, List.drop_drop]
      · intro t ht
        rcases List.mem_append.1 ht with ht | ht
        · exact hok.1 t ht
        · exact hnames t ht
      · rw [Match.append, List.map_append, hok.2, hall, List.singleton_append]

theorem agree_attributes :
    Agree AreAttributes w
      (Rule.matches? (grammar.bodyMatches? (d + 3))
        (.sequence .zeroOrMore [ref "_space" .zeroOrMore, ref "attribute"]) w)
      (some (Reader.attributes w.text)) := by
  rw [Rule.matches?, Quantifier.matches?]
  exact agree_attributesFrom d (w.size + 1) w (Nat.lt_succ_self _)

/-! ## Tags -/

/-- The match of the end of a start tag has a token for the slash, if there is one. -/
def IsTagEnd (m : Match) (selfClosed : Bool) : Prop :=
  (∀ t ∈ m.tokens, t.name = "selfClose") ∧ selfClosed = !m.tokens.isEmpty

theorem agree_selfClose :
    Agree IsTagEnd w (Rule.matches? (grammar.bodyMatches? (d + 1)) (ref "selfClose" .optional) w)
      (some (match Reader.after? ['/'] w.text with
        | some rest => (true, rest)
        | none => (false, w.text))) := by
  have hslash : Agree (fun _ (_ : Unit) => True) w (grammar.bodyMatches? (d + 1) "selfClose" w)
      ((Reader.after? ['/'] w.text).map fun rest => ((), rest)) := by
    have : Agree (fun _ (_ : Unit) => True) w
        (Rule.matchesAll? (grammar.bodyMatches? d) [.literal .one ['/']] w)
        ((Reader.after? ['/'] w.text).map fun rest => ((), rest)) := Agree.last_literal trivial
    rwa [Rule.matchesAll?_singleton] at this
  rw [ref, Rule.matches?, Quantifier.matches?]
  rcases hslash.cases with ⟨hm, hr⟩ | ⟨m, a, hm, hr, hle, -⟩
  · rw [Option.map_eq_none_iff] at hr
    rw [hm, hr]
    exact ⟨Nat.zero_le _, by simp [Match.empty], by simp [Match.empty], rfl⟩
  · obtain ⟨rest, hrest, heq⟩ := Option.map_eq_some_iff.1 hr
    cases heq
    rw [hm, hrest]
    refine ⟨hle, rfl, ?_, rfl⟩
    intro t ht
    obtain rfl := List.mem_singleton.1 ht
    rfl

theorem agree_tagEnd :
    Agree IsTagEnd w
      (Rule.matchesAll? (grammar.bodyMatches? (d + 1)) [ref "_space" .zeroOrMore,
        ref "selfClose" .optional, lit ">"] w)
      (Reader.tagEnd? w.text) := by
  refine Agree.cons_some (agree_blanks d w) fun m₁ _ hm₁ hrest => ?_
  rw [Reader.tagEnd?, ← hrest]
  have hslash := agree_selfClose d (w.drop m₁.length)
  cases hafter : Reader.after? ['/'] (w.drop m₁.length).text with
  | some rest =>
    rw [hafter] at hslash
    refine Agree.cons_some hslash fun m₂ _ hm₂ hrest => ?_
    rw [← hrest]
    refine Agree.last_literal ?_
    simpa only [IsTagEnd, Match.append, hm₁.1, List.nil_append, List.append_nil] using hm₂
  | none =>
    rw [hafter] at hslash
    refine Agree.cons_some hslash fun m₂ _ hm₂ hrest => ?_
    rw [← hrest]
    refine Agree.last_literal ?_
    simpa only [IsTagEnd, Match.append, hm₁.1, List.nil_append, List.append_nil] using hm₂

/-- The start tag that a start tag token stands for, with all of its attributes. -/
def writtenTag (token : Token) : WrittenTag :=
  ⟨token.childText "tagName", (token.childrenNamed "attribute").map Piece.attributeOf⟩

/-- The tokens inside of a start tag: its name, its attributes and perhaps a slash. -/
theorem writtenTag_eq {t name : Token} {attributes ends : List Token}
    (h : t.children = name :: (attributes ++ ends)) (hname : name.name = "tagName")
    (hattributes : ∀ t ∈ attributes, t.name = "attribute")
    (hends : ∀ t ∈ ends, t.name = "selfClose") :
    writtenTag t = ⟨name.text, attributes.map Piece.attributeOf⟩ := by
  have hkeep : attributes.filter (fun c => c.name == "attribute") = attributes :=
    List.filter_eq_self.2 fun t ht => by simp [hattributes t ht]
  have hdrop : ends.filter (fun c => c.name == "attribute") = [] :=
    List.filter_eq_nil_iff.2 fun t ht => by simp [hends t ht]
  have hnamed : t.childrenNamed "attribute" = attributes := by
    rw [Token.childrenNamed, h, List.filter_cons_of_neg (by simp [hname]), List.filter_append, hkeep,
      hdrop, List.append_nil]
  have htext : t.childText "tagName" = name.text := by
    rw [Token.childText, Token.child?, h, List.find?_cons_of_pos (by simp [hname])]
  rw [writtenTag, hnamed, htext]

/-- The element of a start tag keeps the first attribute of each name. -/
theorem elementOf_eq {t name : Token} {attributes ends : List Token}
    (h : t.children = name :: (attributes ++ ends)) (hname : name.name = "tagName")
    (hattributes : ∀ t ∈ attributes, t.name = "attribute")
    (hends : ∀ t ∈ ends, t.name = "selfClose") :
    Piece.elementOf t =
      { name := name.text
        attributes := (attributes.map Piece.attributeOf).foldl (fun as a => as.push a) {}
        selfClosed := !ends.isEmpty } := by
  have hskip : attributes.find? (fun c => c.name == "selfClose") = none :=
    List.find?_eq_none.2 fun t ht => by simp [hattributes t ht]
  have hslash : (ends.find? fun c => c.name == "selfClose").isSome = !ends.isEmpty := by
    cases ends with
    | nil => rfl
    | cons e es => simp [hends e (List.mem_cons_self ..)]
  have hself : (t.child? "selfClose").isSome = !ends.isEmpty := by
    rw [Token.child?, h, List.find?_cons_of_neg (by simp [hname]), List.find?_append, hskip,
      Option.none_or, hslash]
  have hwritten := writtenTag_eq h hname hattributes hends
  simp only [writtenTag, WrittenTag.mk.injEq] at hwritten
  rw [Piece.elementOf, hself, hwritten.1, ← hwritten.2, List.foldl_map]

/-- The piece of a start tag, and the tag as it is written. -/
theorem agree_startTag :
    Agree (fun m p => ∀ t : Token, t.children = m.tokens →
        Piece.startTag (Piece.elementOf t) = p ∧ Reader.tag? w.text = some (writtenTag t)) w
      (grammar.bodyMatches? (d + 4) "startTag" w) (Reader.startTag? w.text) := by
  rw [bodyMatches?_succ rfl, startTag]
  refine Agree.sequence (Agree.cons_literal fun _ htext => ?_)
  refine (agree_reference rfl (agree_tagName (d + 2) _)).reads.cons fun m₁ name _ hm₁ => ?_
  refine Agree.cons_some (agree_attributes d _) fun m₂ _ hm₂ hrest => ?_
  obtain ⟨⟨body, hbody, rfl⟩, hname⟩ := hm₁
  have htag := Reader.tag?_of_name? hname
  have hname := hbody.text_toToken "tagName"
  dsimp only
  rw [← hrest]
  refine (agree_tagEnd (d + 2) _).bind fun m₃ selfClosed hm₃ => ?_
  refine ⟨.startTag
    { name := String.ofList name
      attributes := (Reader.attributes _).1.foldl (fun as a => as.push a) {}
      selfClosed := selfClosed }, fun t ht => ?_, fun rest => rfl⟩
  have hchildren : t.children = body.toToken "tagName" _ :: (m₂.tokens ++ m₃.tokens) := ht
  have hwritten := writtenTag_eq hchildren rfl hm₂.1 hm₃.1
  rw [elementOf_eq hchildren rfl hm₂.1 hm₃.1, hname, hm₂.2, hm₃.2, hwritten, hname, hm₂.2, htext]
  exact ⟨rfl, htag⟩

/-- Of the tokens of a match, the first of the rule `name` covers what was read. -/
def HasChild (name : String) (m : Match) (cs : List Char) : Prop :=
  ∀ t : Token, t.children = m.tokens → t.childText name = String.ofList cs

theorem hasChild_of_isToken {name : String} {m n : Match} {cs : List Char}
    (h : IsToken name w (IsRow w) m cs) (hn : n.tokens = m.tokens) : HasChild name n cs := by
  obtain ⟨body, hbody, rfl⟩ := h
  intro t ht
  rw [← hbody.text_toToken name]
  simp [Token.childText, Token.child?, ht, hn, Match.toToken]

theorem agree_endTagName :
    Agree (HasChild "tagName") w (grammar.bodyMatches? (d + 2) "endTag" w)
      (Reader.endTagName? w.text) := by
  rw [bodyMatches?_succ rfl, endTag]
  refine Agree.sequence (Agree.cons_literal fun _ _ => ?_)
  refine (agree_reference rfl (agree_tagName d _)).cons fun m₁ name _ hm₁ => ?_
  refine Agree.cons_some (agree_blanks d _) fun m₂ _ hm₂ hrest => ?_
  dsimp only
  rw [← hrest]
  refine Agree.cons_literal fun _ _ => Agree.nil (hasChild_of_isToken _ hm₁ ?_)
  simp only [Match.append, hm₂.1, Match.empty, List.nil_append, List.append_nil]

/-- The piece of an end tag holds the text of its token. -/
theorem agree_endTag :
    Agree (fun m p => ∀ t : Token, t.children = m.tokens → t.text = (m.toToken "endTag" w).text →
        Piece.endTag (t.childText "tagName") t.text = p) w
      (grammar.bodyMatches? (d + 2) "endTag" w) (Reader.endTag? w.text) := by
  refine ((agree_endTagName d w).consumed "endTag" fun name raw =>
    Piece.endTag (String.ofList name) raw).imp fun m p _ hp t ht htext => ?_
  obtain ⟨name, hname, rfl⟩ := hp
  rw [hname t ht, htext]

/-! ## Comments -/

theorem matches?_anyChars :
    Rule.matches? (grammar.bodyMatches? (d + 1)) (ref "_char" .zeroOrMore) w =
      some ⟨w.size, []⟩ := by
  have honce : (fun w => (grammar.bodyMatches? (d + 1) "_char" w).map (·.named "_char" w)) =
      fun w => w.char? fun _ => true := by
    funext w
    have hchar : grammar.bodyMatches? (d + 1) "_char" w = w.char? fun _ => true := by
      rw [bodyMatches?_succ rfl, char, oneOf, Rule.matches?, Quantifier.matches?]
      congr 1
      exact funext contains_any
    rw [hchar]
    cases w.char? fun _ => true with
    | none => rfl
    | some m => simp [Match.named, show isSilent "_char" = true from rfl]
  have hall : w.text.takeWhile (fun _ => true) = w.text := by
    induction w.text with
    | nil => rfl
    | cons c cs ih => rw [List.takeWhile_cons_of_pos rfl, ih]
  rw [ref, Rule.matches?, honce, Quantifier.matches?, repeated_char? _ _ _ (Nat.lt_succ_self _),
    hall, Window.length_text]

/-- The body of a comment takes all characters up to the nearest end of a comment, or all there
are. -/
theorem matches?_commentBody :
    grammar.bodyMatches? (d + 2) "commentBody" w =
      some ⟨((nearestMatch (·.literal? ['-', '-', '>']) w).map (· - w.place)).getD w.size, []⟩ := by
  rw [bodyMatches?_succ rfl, commentBody, Rule.matches?, Quantifier.matches?]
  have hcloser : (fun w => Rule.matches? (grammar.bodyMatches? (d + 1)) (lit "-->") w) =
      (·.literal? ['-', '-', '>']) := by
    funext w
    rw [lit, Rule.matches?, Quantifier.matches?]
    rfl
  rw [hcloser]
  cases hnear : nearestMatch (·.literal? ['-', '-', '>']) w with
  | none => exact matches?_anyChars d w
  | some place =>
    have hplace : place - w.place ≤ w.size := by
      obtain ⟨n, hn, rfl⟩ := Option.map_eq_some_iff.1 hnear
      have := List.mem_range.1 (List.mem_of_find?_eq_some hn)
      omega
    dsimp only
    rw [matches?_anyChars]
    simp only [Option.map_some, Option.getD_some, Option.some.injEq, Match.mk.injEq, and_true]
    simp only [Window.size, Window.upTo] at hplace ⊢
    omega

/-- The body of a comment and its end. -/
theorem agree_commentBody :
    Agree (HasChild "commentBody") w
      (Rule.matchesAll? (grammar.bodyMatches? (d + 2)) [ref "commentBody", lit "-->"] w)
      (Reader.commentBody? w.text) := by
  have hsearch : nearestMatch (·.literal? ['-', '-', '>']) w =
      ((List.range w.text.length).find? fun n =>
        (Reader.after? ['-', '-', '>'] (w.text.drop n)).isSome).map fun n => w.place + n := by
    rw [nearestMatch, Window.length_text]
    congr 2
    funext n
    rw [Window.literal?_eq, Window.text_drop, Reader.after?]
    split <;> rfl
  -- the body, once it is known how many characters it takes, and then the end
  have hrest : ∀ n ≤ w.size, grammar.bodyMatches? (d + 2) "commentBody" w = some ⟨n, []⟩ →
      Agree (HasChild "commentBody") w
        (Rule.matchesAll? (grammar.bodyMatches? (d + 2)) [ref "commentBody", lit "-->"] w)
        ((Reader.after? ['-', '-', '>'] (w.text.drop n)).bind fun rest =>
          some (w.text.take n, rest)) := by
    intro n hn hbody
    have hrow : Agree (IsRow w) w (grammar.bodyMatches? (d + 2) "commentBody" w)
        (some (w.text.take n, w.text.drop n)) := by
      rw [hbody]
      exact ⟨hn, Window.text_drop w n, rfl, rfl⟩
    refine Agree.cons_some (agree_reference rfl hrow) fun m _ hm hdrop => ?_
    rw [← hdrop]
    refine Agree.cons_literal fun _ _ => Agree.nil (hasChild_of_isToken _ hm ?_)
    simp only [Match.append, Match.empty, List.append_nil]
  rw [Reader.commentBody?_eq]
  cases hfind : (List.range w.text.length).find? fun n =>
      (Reader.after? ['-', '-', '>'] (w.text.drop n)).isSome with
  | none =>
    have h := hrest w.size (Nat.le_refl _) (by rw [matches?_commentBody, hsearch, hfind]; rfl)
    rwa [List.drop_eq_nil_of_le (Nat.le_of_eq w.length_text)] at h
  | some n =>
    have hn : n < w.size := by
      rw [← w.length_text]
      exact List.mem_range.1 (List.mem_of_find?_eq_some hfind)
    have hsome := List.find?_some hfind
    obtain ⟨rest, hafter⟩ := Option.isSome_iff_exists.1 hsome
    have hdrop : rest = w.text.drop (n + 3) := by
      unfold Reader.after? at hafter
      split at hafter
      · cases hafter
        rw [List.drop_drop]
        rfl
      · cases hafter
    have h := hrest n (Nat.le_of_lt hn) (by
      rw [matches?_commentBody, hsearch, hfind, Option.map_some, Option.map_some, Option.getD_some,
        Nat.add_sub_cancel_left])
    rwa [hafter, Option.bind_some, hdrop] at h

theorem agree_comment :
    Agree (StandsFor fun t => .comment (t.childText "commentBody")) w
      (grammar.bodyMatches? (d + 3) "comment" w) (Reader.comment? w.text) := by
  rw [bodyMatches?_succ rfl, comment]
  refine Agree.sequence (Agree.cons_literal fun _ _ => ?_)
  refine (agree_commentBody d _).bind fun m body hm => ?_
  refine ⟨.comment (String.ofList body), fun t ht => ?_, fun rest => rfl⟩
  dsimp only
  rw [hm t ht]

/-! ## Conditional comments -/

theorem agree_condition :
    Agree (IsRow w) w (grammar.bodyMatches? (d + 1) "ieCondition" w)
      (Reader.condition? w.text) := by
  rw [bodyMatches?_succ rfl, ieCondition]
  refine Agree.sequence (Agree.cons_literal fun _ htext => Agree.last ?_)
  refine (agree_noneOf_oneOrMore d _ [']', '<', '>']).bind fun m row hm => ?_
  refine ⟨'i' :: 'f' :: row, ?_, fun rest => rfl⟩
  have hif : IsRow w ⟨['i', 'f'].length, []⟩ ['i', 'f'] := by
    refine ⟨rfl, ?_⟩
    rw [htext]
    rfl
  exact hif.append hm

theorem agree_openedCondition :
    Agree (HasChild "ieCondition") w (grammar.bodyMatches? (d + 2) "ieHackStart" w)
      (Reader.openedCondition? w.text) := by
  rw [bodyMatches?_succ rfl, ieHackStart]
  refine Agree.sequence (Agree.cons_literals [['<', '!', '-', '-', '['], ['<', '!', '[']]
    fun m₁ hm₁ => ?_)
  refine (agree_reference rfl (agree_condition d _)).cons fun m₂ condition _ hm₂ => ?_
  refine Agree.cons_literals [[']', '>', '<', '!', '-', '-', '>'], [']', '-', '-', '>'], [']', '>']]
    fun m₃ hm₃ => Agree.nil (hasChild_of_isToken _ hm₂ ?_)
  simp only [Match.append, hm₁, hm₃, Match.empty, List.nil_append, List.append_nil]

theorem agree_conditionalStart :
    Agree (fun m p => ∀ t : Token, t.children = m.tokens →
        t.text = (m.toToken "ieHackStart" w).text →
        Piece.conditionalStart { name := t.text, condition := some (t.childText "ieCondition") } =
          p) w
      (grammar.bodyMatches? (d + 2) "ieHackStart" w) (Reader.conditionalStart? w.text) := by
  refine ((agree_openedCondition d w).consumed "ieHackStart" fun condition raw =>
    Piece.conditionalStart { name := raw, condition := some (String.ofList condition) }).imp
    fun m p _ hp t ht htext => ?_
  obtain ⟨condition, hcondition, rfl⟩ := hp
  rw [hcondition t ht, htext]

theorem agree_conditionalEnd :
    Agree (fun m p => ∀ t : Token, t.text = (m.toToken "ieHackEnd" w).text →
        Piece.conditionalEnd t.text = p) w
      (grammar.bodyMatches? (d + 2) "ieHackEnd" w) (Reader.conditionalEnd? w.text) := by
  have hend : Agree (fun _ (_ : Unit) => True) w (grammar.bodyMatches? (d + 2) "ieHackEnd" w)
      ((Reader.afterConditionalEnd? w.text).map fun rest => ((), rest)) := by
    rw [bodyMatches?_succ rfl, ieHackEnd, Option.map_eq_bind, Reader.afterConditionalEnd?,
      Option.bind_eq_bind, Option.bind_assoc]
    refine Agree.sequence (Agree.cons_literals [['<', '!', '-', '-', '<', '!', '['],
      ['<', '!', '-', '-', '['], ['<', '!', '[']] fun m₁ _ => ?_)
    rw [Option.bind_assoc]
    refine Agree.cons_literal fun _ _ => ?_
    refine Agree.cons_some (agree_blanks d _) fun m₂ _ _ hrest => ?_
    rw [← hrest]
    exact Agree.cons_literals [[']', '-', '-', '>'], [']', '>']] fun _ _ => Agree.nil trivial
  have h := hend.consumed "ieHackEnd" fun _ raw => Piece.conditionalEnd raw
  rw [Option.map_map] at h
  refine h.imp fun m p _ hp t htext => ?_
  obtain ⟨_, _, rfl⟩ := hp
  rw [htext]

/-! ## Text -/

theorem agree_text :
    Agree (fun m p => ∀ t : Token, t.text = (m.toToken "text" w).text → Piece.text t.text = p) w
      (grammar.bodyMatches? (d + 1) "text" w) (Reader.text? w.text) := by
  rw [bodyMatches?_succ rfl, text, Rule.matches?, Quantifier.matches?, Reader.text?]
  refine Agree.first ?_ (Agree.last_first ?_)
  · have hp : (fun c => !(['<'].contains c)) = (· != '<') := funext fun c => by
      rw [List.contains_cons, List.contains_nil, Bool.or_false, bne]
    have hrow := agree_noneOf_oneOrMore d w ['<']
    rw [hp] at hrow
    refine hrow.map (fun row => Piece.text (String.ofList row)) fun m row _ hm t ht => ?_
    rw [ht, hm.text_toToken]
  · have hlit : Agree (IsRow w) w (Rule.matches? (grammar.bodyMatches? d) (lit "<") w)
        ((Reader.after? ['<'] w.text).bind fun rest => some (['<'], rest)) := by
      rw [← Rule.matchesAll?_singleton]
      refine Agree.cons_literal fun _ htext => Agree.nil ⟨rfl, ?_⟩
      rw [htext]
      rfl
    rw [Option.map_eq_bind]
    refine (congrArg (Agree _ w _) (Option.map_bind ..)).mp
      (hlit.map (fun row => Piece.text (String.ofList row)) fun m row _ hm t ht => ?_)
    rw [ht, hm.text_toToken]

/-! ## Units -/

/-- The start tag as it is written, if a unit is one. -/
def writtenTag? (unit : Token) : Option WrittenTag :=
  (unit.children.head?.filter fun t => t.name = "startTag").map writtenTag

/-- A unit stands for a piece and, if it is a start tag, for the tag as it is written. -/
def StandsForUnit (w : Window) (m : Match) (p : Piece) : Prop :=
  StandsFor Piece.ofToken m p ∧ StandsFor writtenTag? m (Reader.tagOf? w.text p)

/-- **A unit stands for the piece that the reader reads.**

*Proof sketch.* The alternatives of a unit are the functions that the reader tries, in the same
order (`Agree.first`). Whichever of them matches is the one token inside the unit, by whose name
`Piece.ofToken` decides. -/
theorem agree_unit :
    Agree (StandsForUnit w) w (grammar.bodyMatches? (d + 5) "unit" w)
      (Reader.piece? w.text) := by
  rw [bodyMatches?_succ rfl, unit, Rule.matches?, Quantifier.matches?, Reader.piece?]
  refine Agree.first ((agree_reference rfl (agree_conditionalStart (d + 2) w)).imp ?_) ?_
  · rintro m p _ ⟨body, hbody, rfl⟩
    rw [← hbody (body.toToken "ieHackStart" w) rfl rfl]
    exact ⟨fun t ht => by rw [Piece.ofToken, ht]; rfl, fun t ht => by rw [writtenTag?, ht]; rfl⟩
  refine Agree.first ((agree_reference rfl (agree_conditionalEnd (d + 2) w)).imp ?_) ?_
  · rintro m p _ ⟨body, hbody, rfl⟩
    rw [← hbody (body.toToken "ieHackEnd" w) rfl]
    exact ⟨fun t ht => by rw [Piece.ofToken, ht]; rfl, fun t ht => by rw [writtenTag?, ht]; rfl⟩
  refine Agree.first ((agree_reference rfl (agree_comment (d + 1) w)).imp ?_) ?_
  · rintro m p _ ⟨body, hbody, rfl⟩
    rw [← hbody (body.toToken "comment" w) rfl]
    exact ⟨fun t ht => by rw [Piece.ofToken, ht]; rfl, fun t ht => by rw [writtenTag?, ht]; rfl⟩
  refine Agree.first ((agree_reference rfl (agree_endTag (d + 2) w)).imp ?_) ?_
  · rintro m p _ ⟨body, hbody, rfl⟩
    rw [← hbody (body.toToken "endTag" w) rfl rfl]
    exact ⟨fun t ht => by rw [Piece.ofToken, ht]; rfl, fun t ht => by rw [writtenTag?, ht]; rfl⟩
  refine Agree.first ((agree_reference rfl (agree_startTag d w)).imp ?_) (Agree.last_first ?_)
  · rintro m p _ ⟨body, hbody, rfl⟩
    obtain ⟨hpiece, htag⟩ := hbody (body.toToken "startTag" w) rfl
    rw [← hpiece]
    refine ⟨fun t ht => by rw [Piece.ofToken, ht]; rfl, fun t ht => ?_⟩
    rw [Reader.tagOf?, htag, writtenTag?, ht]
    rfl
  refine (agree_reference rfl (agree_text (d + 3) w)).imp ?_
  rintro m p _ ⟨body, hbody, rfl⟩
  rw [← hbody (body.toToken "text" w) rfl]
  exact ⟨fun t ht => by rw [Piece.ofToken, ht]; rfl, fun t ht => by rw [writtenTag?, ht]; rfl⟩

end

end MarkupFilter.Markup
