import MarkupFilter.Filter.Rendering
import MarkupFilter.Proofs.Markup.Writing
import MarkupFilter.Proofs.Text.References

/-!
# How a filter spells what it writes

Everything that a filter writes is the text of pieces in their usual spelling: texts and comments
without angle brackets, start tags with values that fit their quotes, and end tags.

## Main definitions

* `Element.Shaped` — an element of which the name and the attributes can be written.
* `Element.asWritten` — the element of a start tag as it is written.
* `Spells` — a text is that of pieces in their usual spelling.

## Main results

* `noAngles_escapeAngles`, `noAngles_render` — escaping leaves no angle brackets.
* `unescape_renderValue`, `quote_not_mem_renderValue` — a written value is read as the value itself,
  and does not end at a quote of its own.
* `Spells.tags` — the tags of a text are those of the pieces it spells.
* `Filter.spells_renderText`, `Filter.spells_renderComment`, `Filter.spells_endTag`,
  `Filter.exists_spells_renderLiveStartTag` — what is written for each kind of piece.
-/

set_option autoImplicit false

namespace MarkupFilter

open Reader

/-! ## No angle brackets -/

theorem NoAngles.append {cs ds : List Char} (hc : NoAngles cs) (hd : NoAngles ds) :
    NoAngles (cs ++ ds) := by
  refine ⟨fun hmem => ?_, fun hmem => ?_⟩
  · exact (List.mem_append.1 hmem).elim hc.1 hd.1
  · exact (List.mem_append.1 hmem).elim hc.2 hd.2

theorem noAngles_iff {cs : List Char} : NoAngles cs ↔ ∀ c ∈ cs, c ≠ '<' ∧ c ≠ '>' := by
  refine ⟨fun h c hc => ⟨?_, ?_⟩, fun h => ⟨fun hmem => ?_, fun hmem => ?_⟩⟩
  · rintro rfl
    exact h.1 hc
  · rintro rfl
    exact h.2 hc
  · exact (h '<' hmem).1 rfl
  · exact (h '>' hmem).2 rfl

theorem NoAngles.flatMap {α : Type} {xs : List α} {g : α → List Char}
    (h : ∀ x ∈ xs, NoAngles (g x)) : NoAngles (xs.flatMap g) := by
  rw [noAngles_iff]
  intro c hc
  obtain ⟨x, hx, hmem⟩ := List.mem_flatMap.1 hc
  exact noAngles_iff.1 (h x hx) c hmem

theorem noAngles_escapeAngle (c : Char) : NoAngles (CharacterReference.escapeAngle c) := by
  unfold CharacterReference.escapeAngle
  split
  · exact ⟨by decide, by decide⟩
  · exact ⟨by decide, by decide⟩
  · next hleft hright =>
    exact noAngles_iff.2 fun d hd => by simpa [List.mem_singleton.1 hd] using ⟨hleft, hright⟩

/-- A text with escaped angle brackets has none. -/
theorem noAngles_escapeAngles (s : String) :
    NoAngles (CharacterReference.escapeAngles s).toList := by
  rw [CharacterReference.escapeAngles, String.toList_ofList]
  exact NoAngles.flatMap fun c _ => noAngles_escapeAngle c

/-- A text with angle brackets has an ampersand once they are escaped. -/
theorem amp_mem_escapeAngles {text : String} (h : ¬ NoAngles text.toList) :
    '&' ∈ (CharacterReference.escapeAngles text).toList := by
  obtain ⟨c, hc, hangle⟩ : ∃ c ∈ text.toList, c = '<' ∨ c = '>' := by
    by_contra hnone
    exact h ⟨fun hmem => hnone ⟨_, hmem, .inl rfl⟩, fun hmem => hnone ⟨_, hmem, .inr rfl⟩⟩
  rw [CharacterReference.escapeAngles, String.toList_ofList]
  refine List.mem_flatMap.2 ⟨c, hc, ?_⟩
  rcases hangle with rfl | rfl <;> decide

/-- What is written for the end tag of a disabled element. -/
theorem noAngles_disabledEndTag {name : String} (hname : NoAngles name.toList) :
    NoAngles ("&lt;/" ++ name ++ "&gt;").toList := by
  rw [String.toList_append, String.toList_append]
  exact (NoAngles.append ⟨by decide, by decide⟩ hname).append ⟨by decide, by decide⟩

theorem noAngles_escapeInValue (quote? : Option Char) (c : Char) :
    NoAngles (escapeInValue quote? c) := by
  unfold escapeInValue
  split
  · exact ⟨by decide, by decide⟩
  · exact ⟨by decide, by decide⟩
  · split <;> exact ⟨by decide, by decide⟩
  · split <;> exact ⟨by decide, by decide⟩
  · next hleft hright _ _ =>
    exact noAngles_iff.2 fun d hd => by simpa [List.mem_singleton.1 hd] using ⟨hleft, hright⟩

theorem noAngles_renderValue (quote? : Option Char) (value : String) :
    NoAngles (renderValue quote? value).toList := by
  rw [renderValue, String.toList_ofList]
  exact NoAngles.flatMap fun c _ => noAngles_escapeInValue quote? c

theorem noAngles_of_isTagName {name : List Char} (h : IsTagName name) : NoAngles name := by
  obtain ⟨c, row, rfl, hc, hrow⟩ := h
  refine noAngles_iff.2 fun d hd => ?_
  have hd : isNameChar d = true := by
    rcases List.mem_cons.1 hd with rfl | hmem
    · simp [isNameChar, hc]
    · exact hrow d hmem
  constructor <;> (rintro rfl; exact absurd hd (by decide))

theorem noAngles_of_isBareValue {value : List Char} (h : IsBareValue value) : NoAngles value := by
  obtain ⟨c, row, rfl, hc, hrow⟩ := h
  refine noAngles_iff.2 fun d hd => ?_
  rcases List.mem_cons.1 hd with rfl | hmem
  · constructor <;> (rintro rfl; exact absurd hc (by decide))
  · have := hrow d hmem
    constructor <;> (rintro rfl; exact absurd this (by decide))

theorem Attribute.Shaped.noAngles_name {a : Attribute} (ha : a.Shaped) :
    NoAngles a.name.toList := by
  refine noAngles_iff.2 fun d hd => ?_
  have := ha.name d hd
  constructor <;> (rintro rfl; exact absurd this (by decide))

/-- A written attribute has no angle brackets, whatever its value. -/
theorem noAngles_render {a : Attribute} (ha : a.Shaped) {quote? : Option Char}
    (hquote : quote? = none ∨ quote? = some '"' ∨ quote? = some '\'') :
    NoAngles (a.render quote?).toList := by
  have hmark : NoAngles (quoteText quote?).toList := by
    rcases hquote with rfl | rfl | rfl <;> exact ⟨by decide, by decide⟩
  have hname := ha.noAngles_name
  have hblank : NoAngles " ".toList := ⟨by decide, by decide⟩
  have hsign : NoAngles "=".toList := ⟨by decide, by decide⟩
  unfold Attribute.render
  split
  · simpa only [String.toList_append] using hblank.append hname
  · next value _ =>
    simpa only [String.toList_append] using
      ((((hblank.append hname).append hsign).append hmark).append
        (noAngles_renderValue quote? value)).append hmark

/-! ## Elements that can be written -/

/-- The name and the attributes of the element can be written. -/
structure Element.Shaped (e : Element) : Prop where
  name : IsTagName e.name.toList
  attributes : ∀ a ∈ e.attributes.toList, a.Shaped
  keys : e.attributes.keys.Nodup

theorem Element.WellRead.shaped {e : Element} (h : e.WellRead) : e.Shaped :=
  ⟨h.name, fun a ha => (h.attributes a ha).toShaped, h.keys⟩

theorem Attribute.Shaped.quote_cases {a : Attribute} (ha : a.Shaped) :
    a.quote = none ∨ a.quote = some '"' ∨ a.quote = some '\'' := by
  have hvalue := ha.value
  cases hv : a.value with
  | none =>
    rw [hv] at hvalue
    exact .inl hvalue
  | some value =>
    cases hq : a.quote with
    | none => exact .inl rfl
    | some q =>
      rw [hv, hq] at hvalue
      rcases hvalue.1 with rfl | rfl
      · exact .inr (.inl rfl)
      · exact .inr (.inr rfl)

/-- All written attributes of an element have no angle brackets. -/
theorem Element.Shaped.noAngles_renderAttributes {e : Element} (he : e.Shaped) :
    NoAngles e.renderAttributes.toList := by
  have hall : ∀ as : List Attribute, (∀ a ∈ as, a.Shaped) →
      NoAngles (String.join (as.map fun a => a.render a.quote)).toList := by
    intro as has
    induction as with
    | nil => exact ⟨by simp, by simp⟩
    | cons a as ih =>
      have ha := has a (List.mem_cons_self ..)
      rw [List.map_cons, String.join_cons, String.toList_append]
      exact (noAngles_render ha ha.quote_cases).append
        (ih fun b hb => has b (List.mem_cons_of_mem _ hb))
  exact hall _ fun a ha => he.attributes a (List.mem_filter.1 ha).1

/-! ## Written attributes -/

/-- The attribute as it is written, with its value escaped. -/
def Attribute.asWritten (a : Attribute) : Attribute :=
  { name := a.name, value := a.value.map (renderValue a.quote), quote := a.quote }

@[simp] theorem Attribute.name_asWritten (a : Attribute) : a.asWritten.name = a.name := rfl

@[simp] theorem Attribute.key_asWritten (a : Attribute) : a.asWritten.key = a.key :=
  a.key_eq.symm

theorem Attribute.toList_render {a : Attribute} :
    (a.render a.quote).toList = a.asWritten.write := by
  have hmark : (quoteText a.quote).toList = a.quote.toList := by
    cases a.quote <;> simp [quoteText]
  unfold Attribute.render Attribute.write Attribute.asWritten
  cases a.value with
  | none => simp
  | some value => simp [hmark]

/-- Escaping a value leaves characters as they are that need no escape. -/
theorem escapeInValue_of_ne {quote? : Option Char} {c : Char} (hleft : c ≠ '<') (hright : c ≠ '>')
    (hquote : quote? ≠ some c) : escapeInValue quote? c = [c] := by
  unfold escapeInValue
  split
  · contradiction
  · contradiction
  · rw [if_neg hquote]
  · rw [if_neg hquote]
  · rfl

theorem flatMap_eq_self {cs : List Char} {g : Char → List Char} (h : ∀ c ∈ cs, g c = [c]) :
    cs.flatMap g = cs := by
  induction cs with
  | nil => rfl
  | cons c cs ih =>
    rw [List.flatMap_cons, h c (List.mem_cons_self ..), ih fun d hd =>
      h d (List.mem_cons_of_mem _ hd), List.singleton_append]

/-- Without angle brackets nothing is escaped. -/
theorem escapeAngles_of_noAngles {text : String} (h : NoAngles text.toList) :
    CharacterReference.escapeAngles text = text := by
  have hchar : ∀ c ∈ text.toList, CharacterReference.escapeAngle c = [c] := by
    intro c hc
    obtain ⟨hleft, hright⟩ := noAngles_iff.1 h c hc
    exact CharacterReference.escapeAngle_of_ne hleft hright
  rw [CharacterReference.escapeAngles, flatMap_eq_self hchar, String.ofList_toList]

theorem renderValue_eq_self {quote? : Option Char} {value : String} (h : NoAngles value.toList)
    (hquote : ∀ q, quote? = some q → q ∉ value.toList) : renderValue quote? value = value := by
  have hall : value.toList.flatMap (escapeInValue quote?) = value.toList := by
    have hchar : ∀ c ∈ value.toList, escapeInValue quote? c = [c] := by
      intro c hc
      obtain ⟨hleft, hright⟩ := noAngles_iff.1 h c hc
      exact escapeInValue_of_ne hleft hright fun heq => hquote c heq hc
    exact flatMap_eq_self hchar
  rw [renderValue, hall, String.ofList_toList]

/-- None of the characters that are written as references belongs to a reference, so what is
written starts no new one with what stands before it. -/
theorem isEscaping_escapeInValue (quote? : Option Char) :
    CharacterReference.IsEscaping (escapeInValue quote?) where
  plain c hc := by
    unfold escapeInValue
    split
    · cases hc
    · cases hc
    · cases hc
    · cases hc
    · rfl
  spelled c := by
    unfold escapeInValue
    split
    · exact .inr ⟨_, rfl, fun _ => rfl⟩
    · exact .inr ⟨_, rfl, fun _ => rfl⟩
    · split
      · exact .inr ⟨_, rfl, fun _ => rfl⟩
      · exact .inl rfl
    · split
      · exact .inr ⟨_, rfl, fun _ => rfl⟩
      · exact .inl rfl
    · exact .inl rfl

/-- A written value is read as the value itself. -/
theorem unescape_renderValue (quote? : Option Char) (value : String) :
    CharacterReference.unescape (renderValue quote? value) = CharacterReference.unescape value := by
  rw [CharacterReference.unescape, renderValue, String.toList_ofList,
    (isEscaping_escapeInValue quote?).decodeFrom_flatMap]
  rfl

theorem quote_not_mem_escapeInValue {q : Char} (hq : q = '"' ∨ q = '\'') (c : Char) :
    q ∉ escapeInValue (some q) c := by
  by_cases hc : c = q
  · subst hc
    rcases hq with rfl | rfl <;> decide
  · unfold escapeInValue
    split
    · rcases hq with rfl | rfl <;> decide
    · rcases hq with rfl | rfl <;> decide
    · rw [if_neg fun heq => hc (Option.some.inj heq).symm]
      exact fun hmem => hc (List.mem_singleton.1 hmem).symm
    · rw [if_neg fun heq => hc (Option.some.inj heq).symm]
      exact fun hmem => hc (List.mem_singleton.1 hmem).symm
    · exact fun hmem => hc (List.mem_singleton.1 hmem).symm

/-- The quote around a written value does not occur in it. -/
theorem quote_not_mem_renderValue {q : Char} (hq : q = '"' ∨ q = '\'') (value : String) :
    q ∉ (renderValue (some q) value).toList := by
  rw [renderValue, String.toList_ofList, List.mem_flatMap]
  rintro ⟨c, -, hmem⟩
  exact quote_not_mem_escapeInValue hq c hmem

/-- A written value fits its quotes. -/
theorem Attribute.Shaped.asWritten {a : Attribute} (ha : a.Shaped) : a.asWritten.WellRead := by
  refine ⟨⟨ha.name_ne, ha.name, ?_⟩, rfl⟩
  have hvalue := ha.value
  unfold Attribute.asWritten
  cases hv : a.value with
  | none =>
    rw [hv] at hvalue
    exact hvalue
  | some value =>
    rw [hv] at hvalue
    cases hq : a.quote with
    | none =>
      rw [hq] at hvalue
      rw [Option.map_some, renderValue_eq_self (noAngles_of_isBareValue hvalue) (by simp)]
      exact hvalue
    | some q =>
      rw [hq] at hvalue
      exact ⟨hvalue.1, quote_not_mem_renderValue hvalue.1 value⟩

/-! ## Written start tags -/

/-- The element of a start tag as it is written: with its enabled attributes. -/
def Element.asWritten (e : Element) : Element :=
  { name := e.name, attributes := ⟨e.attributes.enabled.map Attribute.asWritten⟩
    selfClosed := e.selfClosed }

theorem Element.Shaped.asWritten {e : Element} (he : e.Shaped) : e.asWritten.WellRead := by
  have hkeys : e.asWritten.attributes.keys = e.attributes.enabled.map Attribute.key := by
    simp [Element.asWritten, Attributes.keys]
  refine ⟨he.name, rfl, rfl, rfl, fun a ha => ?_, ?_⟩
  · obtain ⟨b, hb, rfl⟩ := List.mem_map.1 ha
    exact (he.attributes b (List.mem_filter.1 hb).1).asWritten
  · rw [hkeys]
    exact he.keys.sublist (List.filter_sublist.map Attribute.key)

/-- A live start tag is the text of a start tag. -/
theorem Filter.toList_renderLiveStartTag (e : Element) :
    (Filter.renderLiveStartTag e).toList = e.asWritten.write := by
  have hattributes : e.renderAttributes.toList =
      e.asWritten.attributes.toList.flatMap Attribute.write := by
    rw [Element.renderAttributes, String.toList_join, List.flatMap_map, Element.asWritten,
      List.flatMap_map]
    simp only [Attribute.toList_render]
  have hself : e.asWritten.selfClosed = e.selfClosed := rfl
  rw [Filter.renderLiveStartTag, Element.write, ← hattributes, hself]
  simp only [String.toList_append, Element.asWritten]
  split <;> simp

/-- The written attribute `a` may be read again as `b`: a slash after a value without quotes belongs
to the value. -/
def Attribute.ReadAs (a b : Attribute) : Prop :=
  b = a ∨ b.name = a.name ∧ a.quote = none ∧
    ∃ value, a.value = some value ∧ b.value = some (value ++ "/")

theorem Attribute.ReadAs.name {a b : Attribute} (h : a.ReadAs b) : b.name = a.name := by
  rcases h with rfl | ⟨hname, -⟩
  · rfl
  · exact hname

theorem Attribute.ReadAs.map_name {as bs : List Attribute}
    (h : List.Forall₂ Attribute.ReadAs as bs) : bs.map Attribute.name = as.map Attribute.name := by
  induction h with
  | nil => rfl
  | cons hab _ ih => rw [List.map_cons, List.map_cons, hab.name, ih]

/-- Every attribute is read again, and every attribute that is read is one of those. -/
theorem Attribute.ReadAs.exists_of_mem {as bs : List Attribute}
    (h : List.Forall₂ Attribute.ReadAs as bs) :
    (∀ a ∈ as, ∃ b ∈ bs, a.ReadAs b) ∧ ∀ b ∈ bs, ∃ a ∈ as, a.ReadAs b := by
  induction h with
  | nil => exact ⟨fun _ ha => absurd ha List.not_mem_nil, fun _ hb => absurd hb List.not_mem_nil⟩
  | @cons a b as bs hab _ ih =>
    refine ⟨fun c hc => ?_, fun c hc => ?_⟩
    · rcases List.mem_cons.1 hc with rfl | hc
      · exact ⟨b, List.mem_cons_self .., hab⟩
      · obtain ⟨d, hd, hcd⟩ := ih.1 c hc
        exact ⟨d, List.mem_cons_of_mem _ hd, hcd⟩
    · rcases List.mem_cons.1 hc with rfl | hc
      · exact ⟨a, List.mem_cons_self .., hab⟩
      · obtain ⟨d, hd, hdc⟩ := ih.2 c hc
        exact ⟨d, List.mem_cons_of_mem _ hd, hdc⟩

/-- The start tag ends in the value of the attribute, without quotes, and a slash. -/
def Element.EndsBareIn (e : Element) (a : Attribute) : Prop :=
  e.selfClosed = true ∧ e.attributes.toList.getLast? = some a ∧ a.quote = none

/-- A slash after a value without quotes belongs to the value, so a start tag that ends so can be
written as another one, whose other attributes are the same. -/
theorem Element.WellRead.exists_wellWritten {e : Element} (he : e.WellRead) :
    ∃ x : Element, x.WellWritten ∧ x.write = e.write ∧ x.name = e.name ∧
      List.Forall₂ Attribute.ReadAs e.attributes.toList x.attributes.toList ∧
        ∀ a ∈ e.attributes.toList, ¬ e.EndsBareIn a → a ∈ x.attributes.toList := by
  by_cases hslash : e.selfClosed = true → ∀ a, e.attributes.toList.getLast? = some a →
      a.value = none ∨ a.quote ≠ none
  · exact ⟨e, ⟨he, hslash⟩, rfl, rfl, List.forall₂_same.2 fun _ _ => .inl rfl, fun _ ha _ => ha⟩
  · obtain ⟨hself, a, hlast, hvalue, hquote⟩ : e.selfClosed = true ∧
        ∃ a, e.attributes.toList.getLast? = some a ∧ a.value ≠ none ∧ a.quote = none := by
      simpa using hslash
    obtain ⟨as, hsplit⟩ := List.getLast?_eq_some_iff.1 hlast
    obtain ⟨value, hvalue⟩ := Option.ne_none_iff_exists'.1 hvalue
    have ha : a.WellRead := he.attributes a (by rw [hsplit]; simp)
    have hbare : IsBareValue value.toList := by
      have := ha.value
      rwa [hvalue, hquote] at this
    let b : Attribute := { name := a.name, value := some (value ++ "/") }
    have hb : b.WellRead := by
      obtain ⟨c, row, htext, hc, hrow⟩ := hbare
      refine ⟨⟨ha.name_ne, ha.name, c, row ++ ['/'], by simp [htext], hc, fun d hd => ?_⟩, rfl⟩
      rcases List.mem_append.1 hd with hmem | hmem
      · exact hrow d hmem
      · rw [List.mem_singleton.1 hmem]
        decide
    have hkey : b.key = a.key := a.key_eq.symm
    refine ⟨{ name := e.name, attributes := ⟨as ++ [b]⟩ },
      ⟨⟨he.name, rfl, rfl, rfl, fun x hx => ?_, ?_⟩, fun h => nomatch h⟩, ?_, rfl, ?_,
      fun c hc hends => ?_⟩
    · rcases List.mem_append.1 hx with hmem | hmem
      · exact he.attributes x (by rw [hsplit]; exact List.mem_append_left _ hmem)
      · rw [List.mem_singleton.1 hmem]
        exact hb
    · have hkeys := he.keys
      simp only [Attributes.keys, hsplit, List.map_append, List.map_singleton] at hkeys ⊢
      rwa [hkey]
    · simp [Element.write, hsplit, hself, Attribute.write, hvalue, hquote, b]
    · rw [hsplit]
      refine List.rel_append (List.forall₂_same.2 fun _ _ => .inl rfl) (.cons ?_ .nil)
      exact .inr ⟨rfl, hquote, value, hvalue, rfl⟩
    · rw [hsplit] at hc
      rcases List.mem_append.1 hc with hmem | hmem
      · exact List.mem_append_left _ hmem
      · rw [List.mem_singleton.1 hmem] at hends
        exact absurd ⟨hself, hlast, hquote⟩ hends

/-! ## Texts that spell pieces -/

/-- The text is that of the pieces, which are in their usual spelling. -/
structure Spells (ps : List Piece) (text : String) : Prop where
  wellWritten : ∀ p ∈ ps, p.WellWritten
  text : text.toList = ps.flatMap Piece.write

namespace Spells

theorem nil : Spells [] "" :=
  ⟨fun _ hp => (List.not_mem_nil hp).elim, rfl⟩

theorem single {p : Piece} {text : String} (hp : p.WellWritten) (htext : text.toList = p.write) :
    Spells [p] text :=
  ⟨fun q hq => by rwa [List.mem_singleton.1 hq], by rw [htext, List.flatMap_singleton]⟩

theorem append {ps qs : List Piece} {s t : String} (hs : Spells ps s) (ht : Spells qs t) :
    Spells (ps ++ qs) (s ++ t) := by
  refine ⟨fun p hp => ?_, ?_⟩
  · exact (List.mem_append.1 hp).elim (hs.wellWritten p) (ht.wellWritten p)
  · rw [String.toList_append, hs.text, ht.text, List.flatMap_append]

/-- **The tags of a text are those of the pieces it spells.** -/
theorem tags {ps : List Piece} {text : String} (h : Spells ps text) :
    Markup.tags text = ps.filterMap Piece.tag? := by
  rw [Markup.tags, Markup.units_eq, h.text]
  exact tags_write h.wellWritten

end Spells

theorem spells_text {text : String} (h : NoAngles text.toList) : Spells [.text text] text :=
  .single h rfl

theorem spells_comment {body : String} (h : NoAngles body.toList) :
    Spells [.comment body] ("<!--" ++ body ++ "-->") :=
  .single h (by simp [Piece.write])

namespace Filter

theorem spells_renderText (raw : String) :
    Spells [.text (CharacterReference.escapeAngles raw)] (renderText raw) :=
  spells_text (noAngles_escapeAngles raw)

theorem spells_renderComment {f : Filter} (hf : f.settings.escapeCommentMarkup = true)
    (body : String) :
    Spells [.comment (CharacterReference.escapeAngles body)] (f.renderComment body) := by
  rw [renderComment, if_pos hf]
  exact spells_comment (noAngles_escapeAngles body)

/-- A live start tag is the text of a start tag with the same attributes, as they are read again. -/
theorem exists_spells_renderLiveStartTag {e : Element} (he : e.Shaped) :
    ∃ x : Element, Spells [.startTag x] (renderLiveStartTag e) ∧ x.name = e.name ∧
      List.Forall₂ Attribute.ReadAs (e.attributes.enabled.map Attribute.asWritten)
        x.attributes.toList ∧
      ∀ a ∈ e.asWritten.attributes.toList, ¬ e.asWritten.EndsBareIn a →
        a ∈ x.attributes.toList := by
  obtain ⟨x, hx, hwrite, hname, hread, hkept⟩ := he.asWritten.exists_wellWritten
  refine ⟨x, .single hx ?_, hname, hread, hkept⟩
  rw [toList_renderLiveStartTag, ← hwrite]
  rfl

/-- The text of an end tag. -/
theorem spells_endTag {name : String} (h : IsTagName name.toList) :
    Spells [.endTag name ("</" ++ name ++ ">")] ("</" ++ name ++ ">") :=
  .single ⟨h, by simp⟩ rfl

end Filter

/-! ### Safety settings -/

theorem Attribute.Shaped.ofValue {name value : String} (hne : name.toList ≠ [])
    (hname : ∀ c ∈ name.toList, isAttributeNameChar c = true) (hvalue : '"' ∉ value.toList) :
    (Attribute.ofValue name value).Shaped :=
  ⟨hne, hname, .inl rfl, hvalue⟩

namespace SafetySetting

theorem isAttributeName (s : SafetySetting) :
    s.name.toList ≠ [] ∧ ∀ c ∈ s.name.toList, isAttributeNameChar c = true := by
  cases s <;> decide

/-- The value of a setting fits any quotes. -/
theorem value_noQuotes (n : Networking) (s : SafetySetting) :
    '"' ∉ (s.value n).toList ∧ '\'' ∉ (s.value n).toList := by
  cases s <;> cases n <;> decide

theorem name_noQuotes (s : SafetySetting) : '"' ∉ s.name.toList := by
  cases s <;> decide

/-- Names and values of settings need no escapes. -/
theorem noAngles (s : SafetySetting) (n : Networking) :
    NoAngles s.name.toList ∧ NoAngles (s.value n).toList := by
  refine ⟨noAngles_iff.2 fun c hc => ?_, ?_⟩
  · have := s.isAttributeName.2 c hc
    constructor <;> (rintro rfl; exact absurd this (by decide))
  · cases s <;> cases n <;> exact ⟨by decide, by decide⟩

/-- The element of a parameter that gives a setting. -/
def param (s : SafetySetting) (n : Networking) : Element :=
  { name := "param", attributes := ⟨[.ofValue "name" s.name, .ofValue "value" (s.value n)]⟩ }

theorem wellWritten_param (s : SafetySetting) (n : Networking) : (s.param n).WellWritten := by
  have hname : IsTagName "param".toList := ⟨'p', "aram".toList, by decide, by decide, by decide⟩
  have hkeys : (s.param n).attributes.keys = ["name", "value"] := rfl
  refine ⟨⟨hname, rfl, rfl, rfl, fun a ha => ?_, hkeys ▸ by decide⟩, fun h => nomatch h⟩
  rcases List.mem_cons.1 ha with rfl | ha
  · exact ⟨.ofValue (by decide) (by decide) s.name_noQuotes, rfl⟩
  · rw [List.mem_singleton.1 ha]
    exact ⟨.ofValue (by decide) (by decide) (s.value_noQuotes n).1, rfl⟩

/-- A parameter is written as it is. -/
theorem asWritten_param (s : SafetySetting) (n : Networking) : (s.param n).asWritten = s.param n := by
  have hname : renderValue (some '"') s.name = s.name :=
    renderValue_eq_self (s.noAngles n).1 fun q hq => Option.some.inj hq ▸ s.name_noQuotes
  have hvalue : renderValue (some '"') (s.value n) = s.value n :=
    renderValue_eq_self (s.noAngles n).2 fun q hq => Option.some.inj hq ▸ (s.value_noQuotes n).1
  have hwritten : (s.param n).asWritten = { name := "param", attributes := ⟨[
      .ofValue "name" (renderValue (some '"') s.name),
      .ofValue "value" (renderValue (some '"') (s.value n))]⟩ } := rfl
  rw [hwritten, hname, hvalue]
  rfl

end SafetySetting

namespace Filter

theorem spells_renderParam (s : SafetySetting) (n : Networking) :
    Spells [.startTag (s.param n)] (renderParam s.name (s.value n)) :=
  .single (s.wellWritten_param n)
    (by simp [renderParam, Piece.write, Element.write, Attribute.write, SafetySetting.param,
      Attribute.ofValue])

/-- The parameters before an end tag. -/
theorem spells_renderParams (settings : List (SafetySetting × Networking)) :
    Spells (settings.map fun p => .startTag (p.1.param p.2))
      (String.join ((settings.map fun p => (p.1.name, p.1.value p.2)).map
        fun (name, value) => renderParam name value)) := by
  induction settings with
  | nil => exact .nil
  | cons p settings ih =>
    rw [List.map_cons, List.map_cons, List.map_cons, String.join_cons]
    exact (spells_renderParam p.1 p.2).append ih

theorem spells_renderConditionalStart {f : Filter} {condition : String}
    (h : IsCondition condition.toList) :
    Spells [.conditionalStart { name := "<!--[" ++ condition ++ "]>", condition := some condition }]
      (f.renderConditionalStart condition .allowed) := by
  have hrender : f.renderConditionalStart condition .allowed = "<!--[" ++ condition ++ "]>" :=
    if_pos rfl
  rw [hrender]
  exact .single ⟨_, condition, rfl, h, by simp⟩ rfl

end Filter

end MarkupFilter
