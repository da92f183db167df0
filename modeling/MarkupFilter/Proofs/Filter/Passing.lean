import MarkupFilter.Proofs.Filter.Guards
import MarkupFilter.Proofs.Filter.Rereading
import MarkupFilter.Proofs.Markup.OpenStack

/-!
# What is written when nothing is neutralized

If elements are allowed with all their attributes, what a filter writes for a piece are pieces
again, and each of them is read again as what it is, unless a comment becomes a conditional one by
its escapes, or the slash of a start tag comes after a value without quotes.

## Main definitions

* `Filter.Passes` — nothing about a piece is neutralized.
* `Filter.ReadsBack` — what is written for a piece is read again as a piece of its kind.
* `Filter.written` — the pieces that are written for a piece.
* `Filter.Calm` — the state is one after allowed elements only.

## Main results

* `Filter.Calm.startTag`, `Filter.Calm.close` — what the steps do to such a state.
* `Filter.spellsBack_step` — what is written is read again as the pieces that are written.
-/

set_option autoImplicit false

namespace MarkupFilter

open Reader

/-! ## Start tags that are read again -/

/-- The start tag ends in a value without quotes and a slash, which belongs to the value when the
tag is read again. -/
def Element.endsBare (e : Element) : Bool :=
  e.selfClosed && e.attributes.toList.getLast?.any fun a => a.value.isSome && a.quote.isNone

theorem Element.WellRead.wellWritten {e : Element} (he : e.WellRead) (h : e.endsBare = false) :
    e.WellWritten := by
  refine ⟨he, fun hself a hlast => ?_⟩
  rw [Element.endsBare, hself, hlast, Option.any_some, Bool.true_and] at h
  cases hvalue : a.value with
  | none => exact .inl rfl
  | some value =>
    cases hquote : a.quote with
    | none => simp [hvalue, hquote] at h
    | some q => exact .inr (Option.some_ne_none q)

/-- A written value is written as it is. -/
theorem Attribute.Shaped.asWritten_asWritten {a : Attribute} (ha : a.Shaped) :
    a.asWritten.asWritten = a.asWritten := by
  have hvalue : ∀ value, a.value = some value →
      renderValue a.quote (renderValue a.quote value) = renderValue a.quote value := by
    intro value hsome
    refine renderValue_eq_self (noAngles_renderValue _ _) fun q hq => ?_
    have hshaped := ha.asWritten.value
    simp only [Attribute.asWritten, hsome, Option.map_some, hq] at hshaped
    rw [hq]
    exact hshaped.2
  unfold Attribute.asWritten
  cases hsome : a.value with
  | none => rfl
  | some value => simp only [Option.map_some, hvalue value hsome]

theorem Element.Shaped.asWritten_asWritten {e : Element} (he : e.Shaped) :
    e.asWritten.asWritten = e.asWritten := by
  have hattributes : e.asWritten.attributes.enabled.map Attribute.asWritten =
      e.asWritten.attributes.toList := by
    have henabled : e.asWritten.attributes.enabled = e.asWritten.attributes.toList :=
      List.filter_eq_self.2 fun a ha => (he.asWritten.attributes a ha).enabled
    rw [henabled, Element.asWritten, List.map_map]
    refine List.map_congr_left fun a ha => ?_
    exact (he.attributes a (List.mem_filter.1 ha).1).asWritten_asWritten
  rw [Element.asWritten, hattributes]
  rfl

/-- Escapes do not make a comment the closer of a conditional one. -/
theorem not_isClosingBody_escapeAngles {body : String} (h : ¬ IsClosingBody body.toList) :
    ¬ IsClosingBody (CharacterReference.escapeAngles body).toList := by
  by_cases hangles : NoAngles body.toList
  · rwa [escapeAngles_of_noAngles hangles]
  · rintro ⟨blanks, hblanks, heq⟩
    have hamp := amp_mem_escapeAngles hangles
    rw [heq, List.append_assoc] at hamp
    rcases List.mem_append.1 hamp with hmem | hmem
    · exact absurd hmem (by decide)
    · rcases List.mem_append.1 hmem with hmem | hmem
      · exact absurd (hblanks _ hmem) (by decide)
      · exact absurd hmem (by decide)

/-! ## Conditions that can be tested -/

theorem isCondition_iff (cs : List Char) : IsCondition cs ↔
    cs.take 2 = ['i', 'f'] ∧ cs.drop 2 ≠ [] ∧ ∀ c ∈ cs.drop 2, isConditionChar c = true := by
  constructor
  · rintro ⟨row, rfl, hne, hrow⟩
    exact ⟨rfl, hne, hrow⟩
  · rintro ⟨hif, hne, hrow⟩
    refine ⟨cs.drop 2, ?_, hne, hrow⟩
    calc cs = cs.take 2 ++ cs.drop 2 := (List.take_append_drop 2 cs).symm
      _ = 'i' :: 'f' :: cs.drop 2 := by rw [hif]; rfl

instance (cs : List Char) : Decidable (IsCondition cs) :=
  decidable_of_iff' _ (isCondition_iff cs)

theorem isConditionBody_iff (body : List Char) : IsConditionBody body ↔
    body = '[' :: (body.drop 1).dropLast ++ [']'] ∧ IsCondition (body.drop 1).dropLast := by
  constructor
  · rintro ⟨condition, hcondition, rfl⟩
    have hinner : (('[' :: condition ++ [']']).drop 1).dropLast = condition := by simp
    rw [hinner]
    exact ⟨rfl, hcondition⟩
  · rintro ⟨heq, hcondition⟩
    exact ⟨_, hcondition, heq⟩

instance (body : List Char) : Decidable (IsConditionBody body) :=
  decidable_of_iff' _ (isConditionBody_iff body)

namespace Filter

variable {f : Filter}

/-! ## Pieces that pass -/

/-- The verdict on a start tag in a state. -/
def verdict (f : Filter) (st : PieceState) (e : Element) : Verdict :=
  f.judge st.guard e (st.openElements.current?.map OpenedElement.name) false

/-- Nothing about the piece is neutralized: an element is allowed, and all of its attributes stay
enabled. -/
def Passes (f : Filter) (st : PieceState) : Piece → Prop
  | .startTag e => (f.verdict st e).decision = .allowed ∧
      ∀ a ∈ (f.verdict st e).element.attributes.toList, a.enabled = true
  | .conditionalStart e => (f.decide e none false).1 = .allowed
  | _ => True

instance (f : Filter) (st : PieceState) : (p : Piece) → Decidable (f.Passes st p)
  | .startTag _ => inferInstanceAs (Decidable (_ ∧ _))
  | .conditionalStart _ => inferInstanceAs (Decidable (_ = _))
  | .text _ | .comment _ | .endTag _ _ | .conditionalEnd _ => inferInstanceAs (Decidable True)

/-- What is written for the piece is read as a piece of its kind: a comment is no conditional one
once its angle brackets are escaped, and the slash of a start tag does not belong to a value. -/
def ReadsBack (f : Filter) (st : PieceState) : Piece → Prop
  | .startTag e => (f.verdict st e).element.asWritten.endsBare = false
  | .comment body => ¬ IsConditionBody (CharacterReference.escapeAngles body).toList
  | _ => True

instance (f : Filter) (st : PieceState) : (p : Piece) → Decidable (f.ReadsBack st p)
  | .startTag _ => inferInstanceAs (Decidable (_ = _))
  | .comment _ => inferInstanceAs (Decidable (¬ _))
  | .text _ | .conditionalStart _ | .endTag _ _ | .conditionalEnd _ =>
    inferInstanceAs (Decidable True)

/-- The start tag of a parameter that is given before an end tag. -/
def paramPiece (v : String × String) : Piece :=
  .startTag { name := "param", attributes := ⟨[.ofValue "name" v.1, .ofValue "value" v.2]⟩ }

/-- What is written for an end tag by itself. -/
def writtenEndTag (name : String) : Decision → List Piece
  | .removed => []
  | .disabled => [.text ("&lt;/" ++ name ++ "&gt;")]
  | .allowed => [.endTag name ("</" ++ name ++ ">")]

/-- The pieces that are written for a piece if nothing about it is neutralized. -/
def written (f : Filter) (st : PieceState) : Piece → List Piece
  | .text raw => [.text (CharacterReference.escapeAngles raw)]
  | .comment body => [.comment (CharacterReference.escapeAngles body)]
  | .conditionalStart e => e.condition.toList.map fun condition =>
      .conditionalStart { name := "<!--[" ++ condition ++ "]>", condition := some condition }
  | .conditionalEnd _ =>
    if decideEndTag (f.policy.elementRule? Policy.conditionalName) = .allowed then
      [.conditionalEnd "<![endif]-->"]
    else []
  | .startTag e => [.startTag (f.verdict st e).element.asWritten]
  | .endTag name _ =>
    match st.openElements.close? name with
    | none => writtenEndTag name (decideEndTag (f.policy.elementRule? name))
    | some c =>
      if c.overdue then []
      else (endObject st.guard c.item.objectKey? true).1.map paramPiece ++
        [.endTag c.item.name ("</" ++ c.item.name ++ ">")]

/-! ## States -/

/-- What is known of an open element that was allowed. Only objects have a frame, and only where
they are protected. -/
structure Standing (f : Filter) (g : ObjectGuard) (x : OpenEntry OpenedElement) : Prop where
  key : x.key = AsciiCase.lower x.item.name
  name : IsTagName x.item.name.toList
  decision : x.item.decision = .allowed
  protects : x.item.objectKey?.isSome = true →
    f.settings.protectObjects = true ∧ AsciiCase.same x.item.name "object" = true
  frame : ∀ key, x.item.objectKey? = some key → key ∈ g.openKeys ∧ key < g.nextKey

/-- The state is one after allowed elements only, of which those on the list are open. -/
structure Calm (f : Filter) (st : PieceState) (es : List (OpenEntry OpenedElement)) : Prop where
  internal : st.guard.Internal
  represents : st.openElements.Represents es
  standing : ∀ x ∈ es, f.Standing st.guard x
  apart : es.Pairwise fun x y => ∀ key, x.item.objectKey? = some key → y.item.objectKey? ≠ some key

variable {st : PieceState} {es : List (OpenEntry OpenedElement)}

theorem Calm.empty (f : Filter) : f.Calm {} [] :=
  ⟨(fun _ _ h => nomatch h), .empty, fun _ h => (List.not_mem_nil h).elim, .nil⟩

/-- A verdict on another element leaves the frames that are open. -/
theorem Standing.judge {g : ObjectGuard} {x : OpenEntry OpenedElement} (h : f.Standing g x)
    (e : Element) (parent? : Option String) (neverClosed : Bool) :
    f.Standing (f.judge g e parent? neverClosed).guard x := by
  refine ⟨h.key, h.name, h.decision, h.protects, fun key hkey => ?_⟩
  obtain ⟨hopen, hlt⟩ := h.frame key hkey
  rcases f.judge_frames g e parent? neverClosed with ⟨-, hkeys, hnext⟩ | ⟨-, hguard⟩
  · rw [hkeys, hnext]
    exact ⟨hopen, hlt⟩
  · rw [hguard]
    exact ⟨List.mem_cons_of_mem _ hopen, Nat.lt_succ_of_lt hlt⟩

/-- A start tag that passes: its element is open afterwards, unless it closes itself. -/
theorem Calm.startTag (hf : f.Plain) (h : f.Calm st es) {e : Element}
    (hname : IsTagName e.name.toList) (hd : (f.verdict st e).decision = .allowed) :
    f.Calm (f.stepStartTag st e).2 (if (f.verdict st e).element.selfClosed then es
      else ⟨st.openElements.nextNumber, AsciiCase.lower (f.verdict st e).element.name, false,
        (f.verdict st e).opened⟩ :: es) := by
  have hinternal : (f.verdict st e).guard.Internal :=
    (judge_alike hf.place hf.network (.refl st.guard) h.internal e
      (st.openElements.current?.map OpenedElement.name) none false false).2
  have htag := sameTag_judge hf.hasLocalListeners st.guard e
    (st.openElements.current?.map OpenedElement.name) false
  have hstanding : ∀ x ∈ es, f.Standing (f.verdict st e).guard x :=
    fun x hx => (h.standing x hx).judge e _ false
  have hstep : (f.stepStartTag st e).2 =
      ⟨if (f.verdict st e).element.selfClosed then st.openElements
        else st.openElements.push (f.verdict st e).element.name (f.verdict st e).opened,
        (f.verdict st e).guard⟩ := rfl
  rw [hstep]
  by_cases hself : (f.verdict st e).element.selfClosed = true
  · rw [if_pos hself, if_pos hself]
    exact ⟨hinternal, h.represents, hstanding, h.apart⟩
  · rw [if_neg hself, if_neg hself]
    refine ⟨hinternal, h.represents.push _ _, fun x hx => ?_, List.pairwise_cons.2 ⟨?_, h.apart⟩⟩
    · rcases List.mem_cons.1 hx with rfl | hmem
      · have hguards : Guards f st.guard (f.verdict st e).element (f.verdict st e).objectKey?
            (f.verdict st e).guard := guards_judge hd
        have hname' : IsTagName (f.verdict st e).opened.name.toList := by
          rw [show (f.verdict st e).opened.name = e.name from htag.name]
          exact hname
        refine ⟨rfl, hname', hd, fun hsome => ?_, fun key hkey => ?_⟩
        · have hframe := hguards.opensFrame_of_key hsome
          simp only [opensFrame, Bool.and_eq_true] at hframe
          exact ⟨hframe.1, hframe.2.1⟩
        · have hframe := hguards.opensFrame_of_key (Option.isSome_iff_exists.2 ⟨key, hkey⟩)
          have hnew : some st.guard.nextKey = some key := by
            have := hguards.key.symm.trans hkey
            rwa [if_pos hframe] at this
          rw [hguards.openKeys, hguards.nextKey, if_pos hframe, if_pos hframe,
            ← Option.some.inj hnew]
          exact ⟨List.mem_cons_self .., Nat.lt_succ_self _⟩
      · exact hstanding x hmem
    · intro y hy key hkey hother
      have hlt := ((h.standing y hy).frame key hother).2
      have hnew := (guards_judge hd).key.symm.trans hkey
      split at hnew
      · have := Option.some.inj hnew
        omega
      · cases hnew

/-- The end of an open element, in its place or not. -/
theorem Calm.close {before after : List (OpenEntry OpenedElement)} {x : OpenEntry OpenedElement}
    (h : f.Calm st (before ++ x :: after)) {c : Closure OpenedElement}
    (hcloses : OpenElements.Represents.Closes st.openElements c before x after) (inPlace : Bool) :
    f.Calm ⟨c.remaining, (endObject st.guard c.item.objectKey? inPlace).2⟩
      (before.map OpenEntry.delay ++ after) := by
  rw [hcloses.item]
  have hguard := endObject_guard st.guard x.item.objectKey? inPlace
  have hapart := List.pairwise_append.1 h.apart
  have hother : ∀ y, (y ∈ before ∨ y ∈ after) → f.Standing
      (endObject st.guard x.item.objectKey? inPlace).2 y := by
    intro y hy
    have hmem : y ∈ before ++ x :: after := by
      rcases hy with hy | hy
      · exact List.mem_append_left _ hy
      · exact List.mem_append_right _ (List.mem_cons_of_mem _ hy)
    have hstanding := h.standing y hmem
    refine ⟨hstanding.key, hstanding.name, hstanding.decision, hstanding.protects,
      fun key hkey => ?_⟩
    obtain ⟨hopen, hlt⟩ := hstanding.frame key hkey
    have hne : x.item.objectKey? ≠ some key := by
      rcases hy with hy | hy
      · exact hapart.2.2 y hy x (List.mem_cons_self ..) key hkey
      · exact fun hsame => (List.pairwise_cons.1 hapart.2.1).1 y hy key hsame hkey
    rw [hguard]
    refine ⟨?_, hlt⟩
    cases hx : x.item.objectKey? with
    | none => exact hopen
    | some k =>
      refine (List.mem_erase_of_ne fun heq => hne ?_).2 hopen
      rw [hx, heq]
  refine ⟨?_, hcloses.remaining, fun y hy => ?_, ?_⟩
  · rw [hguard]
    exact h.internal
  · rcases List.mem_append.1 hy with hy | hy
    · obtain ⟨z, hz, rfl⟩ := List.mem_map.1 hy
      have hstanding := hother z (.inl hz)
      exact ⟨hstanding.key, hstanding.name, hstanding.decision, hstanding.protects,
        hstanding.frame⟩
    · exact hother y (.inr hy)
  · refine List.pairwise_append.2 ⟨?_, (List.pairwise_cons.1 hapart.2.1).2, fun y hy z hz => ?_⟩
    · exact List.pairwise_map.2 hapart.1
    · obtain ⟨w, hw, rfl⟩ := List.mem_map.1 hy
      exact hapart.2.2 w hw z (List.mem_cons_of_mem _ hz)

/-! ## What is written -/

/-- The filter is plain, writes what it rejects without markup, and allows the parameters that it
adds. -/
structure Steady (f : Filter) : Prop extends f.Plain where
  blocking : f.settings.blockingPrefix = none
  escape : f.settings.escapeCommentMarkup = true
  params : ∀ s : SafetySetting, f.Settled (s.param .internal)

/-- The pieces are read again as they are, and the text is theirs. -/
structure SpellsBack (ps : List Piece) (text : String) : Prop where
  rereads : ∀ p ∈ ps, p.Rereads
  text : text.toList = ps.flatMap Piece.write

namespace SpellsBack

theorem nil : SpellsBack [] "" :=
  ⟨fun _ hp => (List.not_mem_nil hp).elim, rfl⟩

theorem single {p : Piece} {text : String} (hp : p.Rereads) (htext : text.toList = p.write) :
    SpellsBack [p] text :=
  ⟨fun q hq => by rwa [List.mem_singleton.1 hq], by rw [htext, List.flatMap_singleton]⟩

theorem append {ps qs : List Piece} {s t : String} (hs : SpellsBack ps s) (ht : SpellsBack qs t) :
    SpellsBack (ps ++ qs) (s ++ t) := by
  refine ⟨fun p hp => ?_, ?_⟩
  · exact (List.mem_append.1 hp).elim (hs.rereads p) (ht.rereads p)
  · rw [String.toList_append, hs.text, ht.text, List.flatMap_append]

end SpellsBack

theorem spellsBack_params (settings : List SafetySetting) :
    SpellsBack ((settings.map fun s => (s.name, s.value .internal)).map paramPiece)
      (String.join ((settings.map fun s => (s.name, s.value .internal)).map
        fun (name, value) => renderParam name value)) := by
  induction settings with
  | nil => exact .nil
  | cons s settings ih =>
    have htext := (spells_renderParam s .internal).text
    rw [List.flatMap_singleton] at htext
    rw [List.map_cons, List.map_cons, List.map_cons, String.join_cons]
    have hparam : (paramPiece (s.name, s.value .internal)).Rereads := s.wellWritten_param .internal
    exact SpellsBack.append (.single hparam htext) ih

/-- An element that is allowed with all of its attributes is written without a marker. -/
theorem renderStartTag_of_enabled {x : Element} (hc : x.condition = none)
    (henabled : ∀ a ∈ x.attributes.toList, a.enabled = true) :
    f.renderStartTag x .allowed = renderLiveStartTag x := by
  have hdisabled : x.attributes.disabled = [] :=
    List.filter_eq_nil_iff.2 fun a ha => by simp [henabled a ha]
  unfold renderStartTag attributeMarker
  rw [hc, hdisabled]
  exact String.empty_append

theorem spellsBack_endTag (hf : f.settings.blockingPrefix = none) {name : String}
    (hname : IsTagName name.toList) (d : Decision) :
    SpellsBack (writtenEndTag name d) (f.renderEndTag name d []) := by
  unfold renderEndTag writtenEndTag
  rw [List.map_nil, String.join_nil, String.empty_append]
  cases d with
  | removed => exact .nil
  | allowed => exact .single ⟨hname, by simp⟩ rfl
  | disabled =>
    dsimp only
    rw [hf]
    exact .single (noAngles_disabledEndTag (noAngles_of_isTagName hname)) rfl

/-- **What is written for a piece that passes**: pieces that are read again as they are. -/
theorem spellsBack_step (hf : f.Steady) (h : f.Calm st es) {p : Piece} (hp : p.WellRead)
    (hpasses : f.Passes st p) (hback : f.ReadsBack st p) :
    SpellsBack (f.written st p) (f.step st p).1 := by
  cases p with
  | text raw => exact .single (noAngles_escapeAngles raw) rfl
  | comment body =>
    refine .single ⟨noAngles_escapeAngles body, hback, not_isClosingBody_escapeAngles hp⟩ ?_
    rw [step, renderComment, if_pos hf.escape]
    simp [Piece.write]
  | conditionalStart e =>
    obtain ⟨name, condition, rfl, -, hcondition⟩ := hp
    have htag := sameTag_decide hf.hasLocalListeners { name := name, condition := some condition }
      none false
    have hallowed : (f.decide { name := name, condition := some condition } none false).1 =
      .allowed := hpasses
    refine .single ⟨_, condition, rfl, hcondition, by simp⟩ ?_
    simp only [step, renderStartTag, htag.condition, hallowed, renderConditionalStart, if_true]
    rfl
  | conditionalEnd raw =>
    rw [step, written, renderConditionalEnd]
    split
    · exact .single rfl rfl
    · exact .nil
  | startTag e =>
    obtain ⟨hallowed, henabled⟩ := hpasses
    have hcondition : (f.verdict st e).element.condition = none :=
      (sameTag_judge hf.hasLocalListeners st.guard e _ false).condition.trans hp.condition
    have hshaped : (f.verdict st e).element.Shaped :=
      shaped_judge hf.protectsLinksOnly st.guard hp.shaped _ false
    refine .single (hshaped.asWritten.wellWritten hback) ?_
    show (f.renderStartTag (f.verdict st e).element (f.verdict st e).decision).toList = _
    rw [hallowed, renderStartTag_of_enabled hcondition henabled, toList_renderLiveStartTag]
    rfl
  | endTag name raw =>
    rw [step, stepEndTag, written]
    rcases h.represents.close?_cases name with hnone | ⟨before, x, after, c, rfl, -, -, hc, hcloses⟩
    · rw [hnone]
      exact spellsBack_endTag hf.blocking hp _
    · rw [hc]
      dsimp only
      by_cases hover : c.overdue = true
      · rw [if_pos hover, if_pos hover]
        exact .nil
      · have hstanding := h.standing x (List.mem_append_right _ (List.mem_cons_self ..))
        obtain ⟨settings, hsettings, -⟩ := exists_settings h.internal c.item.objectKey?
        rw [if_neg hover, if_neg hover]
        rw [Bool.not_eq_true] at hover
        rw [hover, Bool.not_false, hsettings, hcloses.item, hstanding.decision]
        exact (spellsBack_params settings).append
          (.single (p := .endTag x.item.name ("</" ++ x.item.name ++ ">"))
            ⟨hstanding.name, by simp⟩ rfl)

end Filter

end MarkupFilter
