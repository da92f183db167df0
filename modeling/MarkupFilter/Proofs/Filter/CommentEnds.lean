import MarkupFilter.Proofs.Filter.LiveTags
import MarkupFilter.Proofs.Policy.BuiltRules
import MarkupFilter.Proofs.Text.LetterCase

/-!
# Ends of comments in live tags

A conditional comment around live tags must not end within one of them. A live tag has one `>`, at
its end, so it closes a comment only if dashes stand before that. Names of tags and attributes do
not end in dashes under a policy that has no such names, and quotes and slashes keep the dashes of
a value away from the end; what is left is a value without quotes that ends in dashes.

## Main definitions

* `LiveTag` — a tag of an allowed element as it is written.
* `Filter.WritesTags` — the text is a row of parts that the filter writes, with its live tags.
* `LiveTag.ClosesComment` — the end of a comment stands in the text of the tag.
* `LiveTag.EndsInBareDashes` — the tag ends in a value without quotes, and that in dashes.

## Main results

* `Filter.Writes.exists_tags` — every row of parts has its live tags.
* `Filter.closesComment_iff` — which live tags close a comment.
* `Filter.closesComment_bareValue` — there are such tags.
-/

set_option autoImplicit false

namespace MarkupFilter

open Reader

/-! ## Live tags -/

/-- A tag of an allowed element as it is written: a start tag with the enabled attributes of its
element, or an end tag. -/
inductive LiveTag where
  | opening (e : Element)
  | closing (name : String)

namespace LiveTag

/-- The name of the element. -/
def name : LiveTag → String
  | .opening e => e.name
  | .closing name => name

/-- What is written. -/
def text : LiveTag → String
  | .opening e => Filter.renderLiveStartTag e
  | .closing name => "</" ++ name ++ ">"

/-- The end of a comment, `-->` or `--!>`, stands in the text of the tag. -/
def ClosesComment (tag : LiveTag) : Prop :=
  ['-', '-', '>'] <:+: tag.text.toList ∨ ['-', '-', '!', '>'] <:+: tag.text.toList

end LiveTag

/-- The characters end in dashes that end a comment if a `>` follows. -/
def EndsInDashes (cs : List Char) : Prop :=
  ['-', '-'] <:+ cs ∨ ['-', '-', '!'] <:+ cs

/-- The last attribute that is written has a value without quotes that ends in dashes, and no slash
follows it. -/
def LiveTag.EndsInBareDashes : LiveTag → Prop
  | .opening e => e.selfClosed = false ∧ ∃ a value, e.attributes.enabled.getLast? = some a ∧
      a.value = some value ∧ a.quote = none ∧ EndsInDashes value.toList
  | .closing _ => False

namespace Filter

/-- The live start tag of an element that was judged, if it is allowed. -/
def Verdict.liveTags (v : Verdict) : List LiveTag :=
  if v.decision = .allowed then [.opening v.element] else []

/-- The live tags that are written for an end tag: parameters, and the end tag if it is allowed. -/
def endTags (name : String) (d : Decision) (params : List (String × String)) : List LiveTag :=
  (params.map fun p => .opening { name := "param", attributes :=
    ⟨[.ofValue "name" p.1, .ofValue "value" p.2]⟩ }) ++
    if d = .allowed then [.closing name] else []

/-- The text is a row of parts that the filter writes, and `tags` are the live tags in them. -/
inductive WritesTags (f : Filter) : String → List LiveTag → Prop where
  | nothing : WritesTags f "" []
  | append {s t : String} {ss ts : List LiveTag} (hs : WritesTags f s ss) (ht : WritesTags f t ts) :
    WritesTags f (s ++ t) (ss ++ ts)
  | text (raw : String) : WritesTags f (renderText raw) []
  | comment (body : String) : WritesTags f (f.renderComment body) []
  | conditionalStart {e : Element} {condition : String} (hc : e.condition = some condition)
    (hcondition : IsCondition condition.toList) (d : Decision) :
    WritesTags f (f.renderStartTag e d) []
  | conditionalEnd : WritesTags f f.renderConditionalEnd []
  | startTag {e : Element} (hc : e.condition = none) (he : e.Shaped) (g : ObjectGuard)
    (parent? : Option String) (neverClosed : Bool) :
    WritesTags f (f.renderStartTag (f.judge g e parent? neverClosed).element
      (f.judge g e parent? neverClosed).decision) (f.judge g e parent? neverClosed).liveTags
  | endTag {x : OpenedElement} (hx : f.Opened x) (g : ObjectGuard) (inPlace : Bool) :
    WritesTags f (f.renderEndTag x.name x.decision (endObject g x.objectKey? inPlace).1)
      (endTags x.name x.decision (endObject g x.objectKey? inPlace).1)
  | strayEndTag {name : String} (hname : IsTagName name.toList) :
    WritesTags f (f.renderStrayEndTag name)
      (endTags name (decideEndTag (f.policy.elementRule? name)) [])

variable {f : Filter}

/-- **Every row of parts that a filter writes has its live tags.** -/
theorem Writes.exists_tags {text : String} (h : f.Writes text) :
    ∃ tags, f.WritesTags text tags := by
  induction h with
  | nothing => exact ⟨_, .nothing⟩
  | append _ _ hs ht =>
    obtain ⟨ss, hs⟩ := hs
    obtain ⟨ts, ht⟩ := ht
    exact ⟨_, hs.append ht⟩
  | text raw => exact ⟨_, .text raw⟩
  | comment body => exact ⟨_, .comment body⟩
  | conditionalStart hc hcondition d => exact ⟨_, .conditionalStart hc hcondition d⟩
  | conditionalEnd => exact ⟨_, .conditionalEnd⟩
  | startTag hc he g parent? neverClosed => exact ⟨_, .startTag hc he g parent? neverClosed⟩
  | endTag hx g inPlace => exact ⟨_, .endTag hx g inPlace⟩
  | strayEndTag hname => exact ⟨_, .strayEndTag hname⟩

end Filter

/-! ## Characters before the end of a tag -/

/-- What ends with a character ends where that stands for the first time. -/
theorem append_singleton_infix_iff {c : Char} {cs p : List Char} (h : c ∉ cs) :
    p ++ [c] <:+: cs ++ [c] ↔ p <:+ cs := by
  constructor
  · rintro ⟨before, after, heq⟩
    rcases List.eq_nil_or_concat after with rfl | ⟨after, d, rfl⟩
    · refine ⟨before, (List.append_left_inj [c]).1 ?_⟩
      rw [← heq]
      simp
    · have hsplit : before ++ (p ++ [c]) ++ after ++ [d] = cs ++ [c] := by
        rw [← heq]
        simp
      refine absurd ?_ h
      rw [← (List.append_inj' hsplit rfl).1]
      simp
  · rintro ⟨before, rfl⟩
    exact ⟨before, [], by simp⟩

/-- What ends a text without one of its characters ends it after that character. -/
theorem suffix_append_cons_iff {d : Char} {p : List Char} (h : d ∉ p)
    (xs ys : List Char) : p <:+ xs ++ d :: ys ↔ p <:+ ys := by
  constructor
  · intro hsuffix
    by_contra hshort
    rcases List.suffix_or_suffix_of_suffix hsuffix (List.suffix_append xs (d :: ys)) with
      hpart | hpart
    · rcases List.suffix_cons_iff.1 hpart with rfl | hpart
      · exact h (List.mem_cons_self ..)
      · exact hshort hpart
    · exact h (hpart.mem (List.mem_cons_self ..))
  · exact fun hsuffix => hsuffix.trans ⟨xs ++ [d], by simp⟩

theorem endsInDashes_append_cons {d : Char} (hdash : d ≠ '-') (hmark : d ≠ '!')
    (xs ys : List Char) : EndsInDashes (xs ++ d :: ys) ↔ EndsInDashes ys := by
  rw [EndsInDashes, suffix_append_cons_iff (by simp [hdash]),
    suffix_append_cons_iff (by simp [hdash, hmark])]
  rfl

theorem not_endsInDashes_of_not_mem {cs : List Char} (h : '-' ∉ cs) : ¬ EndsInDashes cs := by
  rintro (hsuffix | hsuffix) <;> exact h (hsuffix.mem (by decide))

/-- The name of a tag that does not end in a dash. -/
theorem not_endsInDashes_of_isTagName {name : List Char} (h : IsTagName name)
    (hlast : name.getLast? ≠ some '-') : ¬ EndsInDashes name := by
  obtain ⟨c, row, rfl, hc, hrow⟩ := h
  rintro (⟨before, heq⟩ | hsuffix)
  · rw [← heq] at hlast
    simp at hlast
  · have hmem : '!' ∈ c :: row := hsuffix.mem (by decide)
    rcases List.mem_cons.1 hmem with rfl | hmem
    · exact absurd hc (by decide)
    · exact absurd (hrow _ hmem) (by decide)

/-! ## Tags that close comments -/

namespace LiveTag

/-- A tag with one `>` closes a comment if dashes stand before that. -/
theorem closesComment_iff_endsInDashes {tag : LiveTag} {body : List Char}
    (htext : tag.text.toList = body ++ ['>']) (hbody : '>' ∉ body) :
    tag.ClosesComment ↔ EndsInDashes body := by
  rw [ClosesComment, htext]
  exact or_congr (append_singleton_infix_iff (p := ['-', '-']) hbody)
    (append_singleton_infix_iff (p := ['-', '-', '!']) hbody)

/-- The last item of a start tag with attributes is the last attribute. -/
theorem endsInDashes_write {a : Attribute} (ha : a.Shaped) (hname : '-' ∉ a.name.toList)
    (before : List Char) : EndsInDashes (before ++ (a.render a.quote).toList) ↔
      ∃ value, a.value = some value ∧ a.quote = none ∧ EndsInDashes value.toList := by
  rw [Attribute.toList_render, Attribute.write, Attribute.asWritten]
  cases hvalue : a.value with
  | none =>
    refine iff_of_false ?_ (by simp)
    rw [Option.map_none, endsInDashes_append_cons (by decide) (by decide)]
    exact not_endsInDashes_of_not_mem hname
  | some value =>
    rw [Option.map_some]
    dsimp only
    have hshaped := ha.value
    rw [hvalue] at hshaped
    cases hquote : a.quote with
    | none =>
      rw [hquote] at hshaped
      have hplain : renderValue none value = value :=
        renderValue_eq_self (noAngles_of_isBareValue hshaped) (by simp)
      have hsplit : before ++ (' ' :: a.name.toList ++ '=' :: Option.none.toList ++ value.toList ++
          Option.none.toList) = (before ++ ' ' :: a.name.toList) ++ '=' :: value.toList := by simp
      rw [hplain, hsplit, endsInDashes_append_cons (by decide) (by decide)]
      simp
    | some q =>
      rw [hquote] at hshaped
      refine iff_of_false ?_ (by simp)
      have hsplit : before ++ (' ' :: a.name.toList ++ '=' :: (some q).toList ++
          (renderValue (some q) value).toList ++ (some q).toList) = (before ++ (' ' ::
            a.name.toList ++ '=' :: q :: (renderValue (some q) value).toList)) ++ q :: [] := by simp
      rw [hsplit]
      rcases hshaped.1 with rfl | rfl <;>
        (rw [endsInDashes_append_cons (by decide) (by decide)]
         exact not_endsInDashes_of_not_mem List.not_mem_nil)

/-- **Which start tags close a comment.** -/
theorem closesComment_opening_iff {e : Element} (he : e.Shaped)
    (hname : e.name.toList.getLast? ≠ some '-')
    (hattributes : ∀ a ∈ e.attributes.enabled, '-' ∉ a.name.toList) :
    ClosesComment (.opening e) ↔ EndsInBareDashes (.opening e) := by
  have htext : (text (.opening e)).toList = ('<' :: e.name.toList ++ e.renderAttributes.toList ++
      if e.selfClosed then ['/'] else []) ++ ['>'] := by
    rw [text, Filter.renderLiveStartTag]
    cases e.selfClosed <;> simp
  have hbody : '>' ∉ '<' :: e.name.toList ++ e.renderAttributes.toList ++
      if e.selfClosed then ['/'] else [] := by
    have hends : '>' ∉ if e.selfClosed then ['/'] else [] := by cases e.selfClosed <;> decide
    simp [(noAngles_of_isTagName he.name).2, he.noAngles_renderAttributes.2, hends]
  rw [closesComment_iff_endsInDashes htext hbody, EndsInBareDashes]
  cases hself : e.selfClosed with
  | true =>
    refine iff_of_false ?_ (by simp)
    rw [if_pos rfl, endsInDashes_append_cons (by decide) (by decide)]
    exact not_endsInDashes_of_not_mem List.not_mem_nil
  | false =>
    rw [if_neg Bool.false_ne_true, List.append_nil, Element.renderAttributes, String.toList_join,
      List.flatMap_map]
    rcases List.eq_nil_or_concat e.attributes.enabled with hnone | ⟨as, a, hlast⟩
    · rw [hnone]
      refine iff_of_false ?_ (by simp)
      rw [List.flatMap_nil, List.append_nil]
      exact fun hends => not_endsInDashes_of_isTagName he.name hname
        ((endsInDashes_append_cons (by decide) (by decide) [] _).1 hends)
    · rw [List.concat_eq_append] at hlast
      have hmem : a ∈ e.attributes.enabled := by rw [hlast]; simp
      have ha : a.Shaped := he.attributes a (List.mem_filter.1 hmem).1
      rw [hlast, List.flatMap_append, List.flatMap_singleton, ← List.append_assoc,
        endsInDashes_write ha (hattributes a hmem)]
      simp

/-- End tags do not close comments. -/
theorem not_closesComment_closing {name : String} (hname : IsTagName name.toList)
    (hlast : name.toList.getLast? ≠ some '-') : ¬ ClosesComment (.closing name) := by
  have htext : (text (.closing name)).toList = (['<'] ++ '/' :: name.toList) ++ ['>'] := by
    simp [text]
  have hbody : '>' ∉ ['<'] ++ '/' :: name.toList := by
    simp [(noAngles_of_isTagName hname).2]
  rw [closesComment_iff_endsInDashes htext hbody, endsInDashes_append_cons (by decide) (by decide)]
  exact not_endsInDashes_of_isTagName hname hlast

end LiveTag

/-! ## What a filter writes -/

namespace Filter

variable {f : Filter}

/-! ### Tags in their text -/

/-- The parameters and the end tag stand in what is written for an end tag. -/
theorem infix_endTags (name : String) (d : Decision)
    (settings : List (SafetySetting × Networking)) :
    ∀ tag ∈ endTags name d (settings.map fun p => (p.1.name, p.1.value p.2)),
      tag.text.toList <:+: (f.renderEndTag name d
        (settings.map fun p => (p.1.name, p.1.value p.2))).toList := by
  intro tag htag
  unfold renderEndTag
  rw [String.toList_append]
  rcases List.mem_append.1 htag with hmem | hmem
  · rw [List.map_map] at hmem
    obtain ⟨p, hp, rfl⟩ := List.mem_map.1 hmem
    have hparam : (LiveTag.text (.opening (p.1.param p.2))).toList =
        (renderParam p.1.name (p.1.value p.2)).toList := by
      rw [LiveTag.text, toList_renderLiveStartTag, p.1.asWritten_param,
        (spells_renderParam p.1 p.2).text]
      exact (List.append_nil _).symm
    refine List.IsInfix.trans ?_ (List.prefix_append _ _).isInfix
    rw [String.toList_join, List.flatMap_def]
    refine List.infix_of_mem_flatten ?_
    rw [List.map_map, List.map_map]
    exact List.mem_map.2 ⟨p, hp, hparam.symm⟩
  · split at hmem
    · next hd =>
      rw [List.mem_singleton.1 hmem, hd]
      exact (List.suffix_append _ _).isInfix
    · cases hmem

/-- **Live tags stand in the text** that is written with them. -/
theorem WritesTags.infix (hf : f.policy.HasLocalListeners) {text : String} {tags : List LiveTag}
    (h : f.WritesTags text tags) : ∀ tag ∈ tags, tag.text.toList <:+: text.toList := by
  induction h with
  | nothing | text | comment | conditionalStart | conditionalEnd =>
    exact fun tag htag => (List.not_mem_nil htag).elim
  | append _ _ hs ht =>
    intro tag htag
    rw [String.toList_append]
    rcases List.mem_append.1 htag with hmem | hmem
    · exact (hs tag hmem).trans (List.prefix_append _ _).isInfix
    · exact (ht tag hmem).trans (List.suffix_append _ _).isInfix
  | startTag hc he g parent? neverClosed =>
    intro tag htag
    rw [Verdict.liveTags] at htag
    split at htag
    · next hallowed =>
      rw [List.mem_singleton.1 htag, hallowed, renderStartTag,
        (sameTag_judge hf g _ parent? neverClosed).condition.trans hc]
      dsimp only
      rw [String.toList_append]
      exact (List.suffix_append _ _).isInfix
    · cases htag
  | @endTag x hx g inPlace =>
    obtain ⟨settings, hsettings, -⟩ := exists_endObject g x.objectKey? inPlace
    rw [hsettings]
    exact infix_endTags x.name x.decision settings
  | @strayEndTag name hname => exact infix_endTags name _ []

/-! ### Tags that close comments -/

/-- Only names that have a rule are allowed. -/
theorem exists_rule_of_decideEndTag {rule? : Option ElementRule}
    (h : decideEndTag rule? = .allowed) : ∃ rule, rule? = some rule := by
  cases rule? with
  | none => cases h
  | some rule => exact ⟨rule, rfl⟩

/-- A name does not end in a dash if that of its rule does not. -/
theorem getLast?_ne_dash (hnamed : f.policy.elements.Named ElementRule.name) {name : String}
    {rule : ElementRule} (hrule : f.policy.elementRule? name = some rule)
    (hlast : rule.name.toList.getLast? ≠ some '-') : name.toList.getLast? ≠ some '-' :=
  fun hdash => hlast (AsciiCase.getLast?_of_lower_eq (by decide) (hnamed.of_find? hrule).symm hdash)

/-- Attributes that are allowed have no dash in their names. -/
theorem dash_not_mem_of_allowsTag (hnamed : f.policy.attributes.Named AttributeRule.name)
    (hdash : ∀ name rule, f.policy.attributeRule? name = some rule → '-' ∉ rule.name.toList)
    {tag : WrittenTag} (htag : f.AllowsTag tag) : ∀ a ∈ tag.attributes, '-' ∉ a.name.toList := by
  obtain ⟨_, _, _, _, hattributes⟩ := htag
  intro a ha hmem
  rcases hattributes a ha with ⟨-, rule, hrule, -⟩ | ⟨-, hguarded⟩
  · exact hdash a.name rule hrule
      (AsciiCase.mem_of_lower_eq (by decide) (hnamed.of_find? hrule).symm hmem)
  · obtain ⟨name, hsame, hname⟩ : ∃ name, AsciiCase.same a.name name = true ∧
        '-' ∉ name.toList := by
      rcases hguarded with ⟨-, hvalue⟩ | ⟨-, s, hs⟩
      · exact ⟨_, hvalue, by decide⟩
      · exact ⟨_, hs, by cases s <;> decide⟩
    exact hname (AsciiCase.mem_of_lower_eq (by decide) ((AsciiCase.same_iff ..).1 hsame) hmem)

/-- If the rule of its name does not end in a dash, the tag closes a comment exactly if it ends in a
value without quotes, and that in dashes. -/
def ClosesBare (f : Filter) (tag : LiveTag) : Prop :=
  (∀ rule, f.policy.elementRule? tag.name = some rule → rule.name.toList.getLast? ≠ some '-') →
    (tag.ClosesComment ↔ tag.EndsInBareDashes)

/-- Of the tags that are written for an end tag, none closes a comment. -/
theorem closesBare_endTags (hnamed : f.policy.elements.Named ElementRule.name) {name : String}
    (hname : IsTagName name.toList) {d : Decision}
    (hrule : d = .allowed → ∃ rule, f.policy.elementRule? name = some rule)
    (settings : List (SafetySetting × Networking)) :
    ∀ tag ∈ endTags name d (settings.map fun p => (p.1.name, p.1.value p.2)), f.ClosesBare tag := by
  intro tag htag hlast
  rcases List.mem_append.1 htag with hmem | hmem
  · rw [List.map_map] at hmem
    obtain ⟨p, -, rfl⟩ := List.mem_map.1 hmem
    have hparam : "param".toList.getLast? ≠ some '-' := by decide
    refine LiveTag.closesComment_opening_iff (e := p.1.param p.2) (p.1.wellWritten_param p.2).shaped
      hparam fun a ha => ?_
    have ha : a ∈ (p.1.param p.2).attributes.toList := (List.mem_filter.1 ha).1
    rcases List.mem_cons.1 ha with rfl | ha
    · show '-' ∉ "name".toList
      decide
    · rw [List.mem_singleton.1 ha]
      show '-' ∉ "value".toList
      decide
  · split at hmem
    · next hd =>
      rw [List.mem_singleton.1 hmem] at hlast ⊢
      obtain ⟨rule, hrule⟩ := hrule hd
      exact iff_of_false (LiveTag.not_closesComment_closing hname
        (getLast?_ne_dash hnamed hrule (hlast rule hrule))) id
    · cases hmem

/-- **Which live tags close a comment**, in any row of parts that a filter without listeners
writes. The induction is on the parts. -/
theorem WritesTags.closesBare (hf : f.policy.ListenerFree)
    (helements : f.policy.elements.Named ElementRule.name)
    (hattributes : f.policy.attributes.Named AttributeRule.name)
    (hdash : ∀ name rule, f.policy.attributeRule? name = some rule → '-' ∉ rule.name.toList)
    {text : String} {tags : List LiveTag} (h : f.WritesTags text tags) :
    ∀ tag ∈ tags, f.ClosesBare tag := by
  induction h with
  | nothing | text | comment | conditionalStart | conditionalEnd =>
    exact fun tag htag => (List.not_mem_nil htag).elim
  | append _ _ hs ht =>
    exact fun tag htag => (List.mem_append.1 htag).elim (hs tag) (ht tag)
  | startTag hc he g parent? neverClosed =>
    intro tag htag hlast
    rw [Verdict.liveTags] at htag
    split at htag
    · next hallowed =>
      obtain ⟨-, -, hpassed, -⟩ := passed_judge hf g hc he parent? neverClosed
      have hpassed := hpassed hallowed
      obtain ⟨rule, hrule, -⟩ := hpassed.tag
      rw [List.mem_singleton.1 htag] at hlast ⊢
      exact LiveTag.closesComment_opening_iff hpassed.toShaped
        (getLast?_ne_dash helements hrule (hlast rule hrule))
        (dash_not_mem_of_allowsTag hattributes hdash hpassed.tag)
    · cases htag
  | @endTag x hx g inPlace =>
    obtain ⟨e, g', parent?, neverClosed, hc, he, rfl⟩ := hx
    obtain ⟨-, -, hpassed, hremembered⟩ := passed_judge hf g' hc he parent? neverClosed
    obtain ⟨settings, hsettings, -⟩ := exists_endObject g
      (f.judge g' e parent? neverClosed).opened.objectKey? inPlace
    rw [hsettings]
    refine closesBare_endTags helements hremembered.name (fun hallowed => ?_) settings
    obtain ⟨rule, hrule, -⟩ := (hpassed hallowed).tag
    exact ⟨rule, hrule⟩
  | strayEndTag hname =>
    exact closesBare_endTags helements hname exists_rule_of_decideEndTag []

/-- **Live tags close a comment only by a bare value.** Under a policy without listeners and without
dashes in the names of its attribute rules, a filtered text is a row of parts, whichever way it was
filtered. A live tag in it, of which the rule's name does not end in a dash, has `-->` or `--!>` in
its text exactly if its last attribute has a value without quotes that ends in `--` or `--!`, and no
slash follows it.

*Proof sketch.* Names have no angle brackets, and those of values are escaped, so the tag has one
`>` (`LiveTag.closesComment_iff_endsInDashes`). What stands before it is looked at from its end: a
slash, a quote, a name, or a value after `=` (`endsInDashes_append_cons`). -/
theorem closesComment_iff {d : PolicyDraft} {registry : ListenerRegistry}
    (hbuild : d.build registry = .ok f.policy) (hf : f.policy.ListenerFree)
    (hdash : ∀ name rule, f.policy.attributeRule? name = some rule → '-' ∉ rule.name.toList)
    (input : String) {text : String} (htext : text = f.byTree input ∨ text = f.byPiece input) :
    (∃ tags, f.WritesTags text tags) ∧ ∀ tags, f.WritesTags text tags → ∀ tag ∈ tags,
      tag.text.toList <:+: text.toList ∧
        ((∀ rule, f.policy.elementRule? tag.name = some rule →
          rule.name.toList.getLast? ≠ some '-') →
          (tag.ClosesComment ↔ tag.EndsInBareDashes)) := by
  have hwrites : f.Writes text := by
    rcases htext with rfl | rfl
    · exact writes_byTree hf.hasLocalListeners input
    · exact writes_byPiece hf.hasLocalListeners input
  obtain ⟨helements, hattributes⟩ := PolicyDraft.named_of_build hbuild
  refine ⟨hwrites.exists_tags, fun tags htags tag htag => ⟨?_, ?_⟩⟩
  · exact htags.infix hf.hasLocalListeners tag htag
  · exact htags.closesBare hf helements hattributes hdash tag htag

/-! ### Titles -/

/-- Bold texts with titles. -/
def titles : Filter where
  policy :=
    { elements := ⟨[("b", { name := "b", attributes := ["title"] })]⟩
      attributes := ⟨[("title", { name := "title" })]⟩ }

/-- The policy of titles is built from its two rules. -/
theorem titles_built : PolicyDraft.build
    ⟨[{ rule := { name := "b", attributes := ["title"] } }], [{ rule := { name := "title" } }]⟩ =
      .ok titles.policy := by
  rfl

theorem titles_rules : titles.policy.ListenerFree ∧
    (∀ name rule, titles.policy.attributeRule? name = some rule → '-' ∉ rule.name.toList) ∧
    ∀ name rule, titles.policy.elementRule? name = some rule →
      rule.name.toList.getLast? ≠ some '-' := by
  have helements : titles.policy.elements.Every fun rule =>
      rule.listeners = [] ∧ rule.name.toList.getLast? ≠ some '-' := by
    intro entry hentry
    rw [List.mem_singleton.1 hentry]
    exact ⟨rfl, by decide⟩
  have hattributes : titles.policy.attributes.Every fun rule =>
      rule.listeners = [] ∧ '-' ∉ rule.name.toList := by
    intro entry hentry
    rw [List.mem_singleton.1 hentry]
    exact ⟨rfl, by decide⟩
  exact ⟨⟨fun _ _ hrule => (helements.of_find? hrule).1,
    fun _ _ hrule => (hattributes.of_find? hrule).1⟩,
    fun _ _ hrule => (hattributes.of_find? hrule).2, fun _ _ hrule => (helements.of_find? hrule).2⟩

/-- Dashes within quotes, before a slash and in a text. -/
theorem closesComment_iff_titles :
    titles.byPiece "<b title='--'>--></b><B title=--! >" = "<b title='--'>--&gt;</b><B title=--!>" ∧
      ∀ tags, titles.WritesTags "<b title='--'>--&gt;</b><B title=--!>" tags → ∀ tag ∈ tags,
        (tag.ClosesComment ↔ tag.EndsInBareDashes) := by
  have htext : titles.byPiece "<b title='--'>--></b><B title=--! >" =
      "<b title='--'>--&gt;</b><B title=--!>" := by decide +kernel
  obtain ⟨hfree, hdash, hlast⟩ := titles_rules
  obtain ⟨-, hall⟩ := closesComment_iff titles_built hfree hdash
    "<b title='--'>--></b><B title=--! >" (.inr htext.symm)
  exact ⟨htext, fun tags htags tag htag => (hall tags htags tag htag).2 fun rule => hlast tag.name rule⟩

/-- A live tag can close a comment: the `>` after a value without quotes is not escaped. -/
theorem closesComment_bareValue :
    PolicyDraft.build ⟨[{ rule := { name := "b", attributes := ["title"] } }],
        [{ rule := { name := "title" } }]⟩ = .ok titles.policy ∧
      titles.policy.ListenerFree ∧ titles.settings.blockingPrefix = none ∧
      titles.byTree "<b title=x-->" = "<b title=x-->" ∧
      titles.byPiece "<b title=x-->" = "<b title=x-->" ∧
      ∃ tag : LiveTag, tag.name = "b" ∧ titles.WritesTags "<b title=x-->" [tag] ∧
        tag.ClosesComment := by
  let e : Element := { name := "b", attributes := ⟨[{ name := "title", value := some "x--" }]⟩ }
  have hmem : .startTag e ∈ Piece.ofText "<b title=x-->" := by decide +kernel
  have hshaped : e.Shaped := by
    rw [Piece.ofText_eq_pieces] at hmem
    exact Element.WellRead.shaped (wellRead_pieces _ _ hmem)
  have hjudged : (titles.judge {} e none false).decision = .allowed ∧
      (titles.judge {} e none false).element = e := by decide +kernel
  have hwrites := WritesTags.startTag (f := titles) rfl hshaped {} none false
  rw [Verdict.liveTags, hjudged.1, hjudged.2, if_pos rfl] at hwrites
  refine ⟨titles_built, titles_rules.1, rfl, by decide +kernel, by decide +kernel, .opening e, rfl,
    hwrites, .inl ?_⟩
  exact ⟨"<b title=x".toList, [], by decide⟩

end Filter

end MarkupFilter
