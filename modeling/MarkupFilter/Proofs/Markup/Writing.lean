import MarkupFilter.Proofs.Markup.Pieces
import MarkupFilter.Proofs.Markup.Shape

/-!
# Writing pieces and reading them again

A piece that is written in the usual spelling is read again as it is, whatever follows it. What is
read again in texts written one after the other is therefore known from the pieces: only texts run
together, and a comment may be read as a conditional one.

## Main definitions

* `Piece.write` — the text of a piece.
* `Piece.WellWritten` — the piece is in the usual spelling.

## Main results

* `Reader.piece?_startTag`, `Reader.piece?_endTag`, `Reader.piece?_conditionalStart`,
  `Reader.piece?_conditionalEnd`, `Reader.piece?_comment` — each kind of piece is read again.
* `Reader.units_text` — texts run together.
-/

set_option autoImplicit false

namespace MarkupFilter

open Reader

/-! ## The text of a piece -/

/-- A blank and an attribute with its value as it is. -/
def Attribute.write (a : Attribute) : List Char :=
  match a.value with
  | none => ' ' :: a.name.toList
  | some value =>
    ' ' :: a.name.toList ++ '=' :: a.quote.toList ++ value.toList ++ a.quote.toList

/-- A start tag in its usual spelling. -/
def Element.write (e : Element) : List Char :=
  '<' :: e.name.toList ++ e.attributes.toList.flatMap Attribute.write ++
    if e.selfClosed then ['/', '>'] else ['>']

/-- The text of a piece. -/
def Piece.write : Piece → List Char
  | .text raw => raw.toList
  | .comment body => ['<', '!', '-', '-'] ++ body.toList ++ ['-', '-', '>']
  | .startTag e => e.write
  | .endTag _ raw => raw.toList
  | .conditionalStart e => e.name.toList
  | .conditionalEnd raw => raw.toList

/-- There are no angle brackets among the characters. -/
def NoAngles (cs : List Char) : Prop :=
  '<' ∉ cs ∧ '>' ∉ cs

/-- The element of a start tag that can be written. A slash must not follow a value without quotes,
to which it would belong. -/
structure Element.WellWritten (e : Element) : Prop extends e.WellRead where
  slash : e.selfClosed = true → ∀ a, e.attributes.toList.getLast? = some a →
    a.value = none ∨ a.quote ≠ none

/-- The piece is in the usual spelling. -/
def Piece.WellWritten : Piece → Prop
  | .text raw => NoAngles raw.toList
  | .comment body => NoAngles body.toList
  | .startTag e => e.WellWritten
  | .endTag name raw => IsTagName name.toList ∧ raw.toList = '<' :: '/' :: name.toList ++ ['>']
  | .conditionalStart e => ∃ name condition : String,
      e = { name := name, condition := some condition } ∧ IsCondition condition.toList ∧
        name.toList = ['<', '!', '-', '-', '['] ++ condition.toList ++ [']', '>']
  | .conditionalEnd raw => raw = "<![endif]-->"

namespace Reader

/-! ## Rows of characters -/

/-- The text does not go on with a character that satisfies `p`. -/
def Stops (p : Char → Bool) (cs : List Char) : Prop :=
  ∀ c, cs.head? = some c → p c = false

theorem stops_cons {p : Char → Bool} {c : Char} (h : p c = false) (cs : List Char) :
    Stops p (c :: cs) := by
  intro d hd
  cases hd
  exact h

theorem dropWhile_of_stops {p : Char → Bool} {cs : List Char} (h : Stops p cs) :
    cs.takeWhile p = [] ∧ cs.dropWhile p = cs := by
  cases cs with
  | nil => exact ⟨rfl, rfl⟩
  | cons c cs =>
    have hc := h c rfl
    simp [hc]

/-- A row of characters ends where the text stops. -/
theorem takeWhile_row {p : Char → Bool} {row rest : List Char} (h : ∀ c ∈ row, p c = true)
    (hrest : Stops p rest) :
    (row ++ rest).takeWhile p = row ∧ (row ++ rest).dropWhile p = rest := by
  obtain ⟨htake, hdrop⟩ := dropWhile_of_stops hrest
  rw [List.takeWhile_append_of_pos h, List.dropWhile_append_of_pos h, htake, hdrop, List.append_nil]
  exact ⟨rfl, rfl⟩

theorem row?_append {p : Char → Bool} {row rest : List Char} (hne : row ≠ [])
    (h : ∀ c ∈ row, p c = true) (hrest : Stops p rest) : row? p (row ++ rest) = some (row, rest) := by
  obtain ⟨htake, hdrop⟩ := takeWhile_row h hrest
  unfold row?
  rw [htake, hdrop, if_neg]
  simpa using hne

theorem skipBlanks_of_stops {cs : List Char} (h : Stops isBlank cs) : skipBlanks cs = cs :=
  (dropWhile_of_stops h).2

theorem name?_append {name rest : List Char} (h : IsTagName name) (hrest : Stops isNameChar rest) :
    name? (name ++ rest) = some (name, rest) := by
  obtain ⟨c, row, rfl, hc, hrow⟩ := h
  obtain ⟨htake, hdrop⟩ := takeWhile_row hrow hrest
  simp [name?, char?, hc, htake, hdrop]

/-- What precedes a first character is known from the whole text. -/
theorem append_cons_inj {c : Char} {xs ys xs' ys' : List Char} (hxs : c ∉ xs) (hxs' : c ∉ xs')
    (h : xs ++ c :: ys = xs' ++ c :: ys') : xs = xs' ∧ ys = ys' := by
  have hsplit : ∀ zs ws : List Char, c ∉ zs →
      (zs ++ c :: ws).takeWhile (· != c) = zs ∧ (zs ++ c :: ws).dropWhile (· != c) = c :: ws := by
    intro zs ws hzs
    refine takeWhile_row (fun d hd => ?_) (stops_cons (by simp) ws)
    simpa using fun heq : d = c => hzs (heq ▸ hd)
  obtain ⟨htake, hdrop⟩ := hsplit xs ys hxs
  obtain ⟨htake', hdrop'⟩ := hsplit xs' ys' hxs'
  rw [h, htake'] at htake
  rw [h, hdrop'] at hdrop
  injection hdrop with _ htail
  exact ⟨htake.symm, htail.symm⟩

/-! ## Start tags -/

theorem not_isBlank_of_attributeName {c : Char} (h : isAttributeNameChar c = true) :
    isBlank c = false := by
  simp only [isAttributeNameChar, isBlank, Bool.not_eq_true', List.contains_eq_mem,
    decide_eq_false_iff_not, List.mem_append, not_or] at h ⊢
  exact h.1

theorem not_isBlank_of_bareStart {c : Char} (h : isBareStart c = true) :
    isBlank c = false ∧ c ≠ '"' ∧ c ≠ '\'' := by
  simp only [isBareStart, isBlank, Bool.not_eq_true', List.contains_eq_mem,
    decide_eq_false_iff_not, List.mem_append, not_or, List.mem_cons] at h ⊢
  exact ⟨h.1, h.2.2.1, h.2.2.2.1⟩

/-- What may follow an attribute, so that it ends there: nothing that belongs to its name or is
assigned to it. -/
structure EndsAttribute (rest : List Char) : Prop where
  name : Stops isAttributeNameChar rest
  assigned : after? ['='] (skipBlanks rest) = none

/-- What may follow a value without quotes. -/
def EndsValue (a : Attribute) (rest : List Char) : Prop :=
  a.value = none ∨ a.quote ≠ none ∨ Stops isBareChar rest

theorem after?_cons_of_ne {c d : Char} (h : c ≠ d) (start cs : List Char) :
    after? (c :: start) (d :: cs) = none := by
  simp [after?, List.isPrefixOf, h]

theorem quotedValue?_append {quote : Char} {value : List Char} (h : quote ∉ value)
    (rest : List Char) :
    quotedValue? quote (quote :: value ++ quote :: rest) = some ((value, some quote), rest) := by
  have hrow : ∀ c ∈ value, (c != quote) = true := by
    intro c hc
    simpa using fun heq : c = quote => h (heq ▸ hc)
  obtain ⟨htake, hdrop⟩ := takeWhile_row hrow (stops_cons (c := quote) (by simp) rest)
  have hopen : after? [quote] (quote :: value ++ quote :: rest) = some (value ++ quote :: rest) :=
    after?_append [quote] _
  have hclose : after? [quote] (quote :: rest) = some rest := after?_append [quote] _
  simp only [quotedValue?, Option.bind_eq_bind, hopen, Option.bind_some, htake, hdrop, hclose]
  rfl

/-- A value is read up to its closing quote or, without quotes, up to what ends it. -/
theorem value?_append {a : Attribute} {value : String} (hvalue : a.value = some value)
    (ha : FitsQuotes a.value a.quote) {rest : List Char} (hrest : EndsValue a rest) :
    skipBlanks (a.quote.toList ++ value.toList ++ a.quote.toList ++ rest) =
        a.quote.toList ++ value.toList ++ a.quote.toList ++ rest ∧
      value? (a.quote.toList ++ value.toList ++ a.quote.toList ++ rest) =
        some ((value.toList, a.quote), rest) := by
  rw [hvalue] at ha
  unfold EndsValue at hrest
  rw [hvalue] at hrest
  cases hquote : a.quote with
  | none =>
    rw [hquote] at ha hrest
    obtain ⟨c, row, htext, hc, hrow⟩ := ha
    have hstops : Stops isBareChar rest := by simpa using hrest
    obtain ⟨hblank, hdouble, hsingle⟩ := not_isBlank_of_bareStart hc
    obtain ⟨htake, hdrop⟩ := takeWhile_row hrow hstops
    rw [htext]
    refine ⟨skipBlanks_of_stops (stops_cons hblank _), ?_⟩
    have hquoted : ∀ q, c ≠ q → quotedValue? q (c :: (row ++ rest)) = none := by
      intro q hq
      simp only [quotedValue?, after?_cons_of_ne (Ne.symm hq), Option.bind_eq_bind,
        Option.bind_none]
    simp [value?, hquoted _ hdouble, hquoted _ hsingle, bareValue?, char?, hc, htake, hdrop]
  | some q =>
    rw [hquote] at ha
    obtain ⟨hq, hmem⟩ := ha
    have hread := quotedValue?_append hmem rest
    have hshape : (some q).toList ++ value.toList ++ (some q).toList ++ rest =
        q :: value.toList ++ q :: rest := by simp
    rw [hshape]
    rcases hq with rfl | rfl
    · refine ⟨skipBlanks_of_stops (stops_cons rfl _), ?_⟩
      rw [value?, hread]
      rfl
    · refine ⟨skipBlanks_of_stops (stops_cons rfl _), ?_⟩
      have hdouble : quotedValue? '"' ('\'' :: value.toList ++ '\'' :: rest) = none := by
        simp only [quotedValue?, List.cons_append, after?_cons_of_ne (by decide : '"' ≠ '\''),
          Option.bind_eq_bind, Option.bind_none]
      rw [value?, hdouble, hread]
      rfl

/-- An attribute is read again as it is. -/
theorem attribute?_write {a : Attribute} (ha : a.WellRead) {rest : List Char}
    (hrest : EndsAttribute rest) (hvalue : EndsValue a rest) :
    attribute? (skipBlanks (a.write ++ rest)) = some (a, rest) := by
  obtain ⟨c, name, hname⟩ := List.exists_cons_of_ne_nil ha.name_ne
  have hblank := not_isBlank_of_attributeName (ha.name c (by rw [hname]; exact List.mem_cons_self ..))
  have hskip : ∀ cs, skipBlanks (' ' :: (a.name.toList ++ cs)) = a.name.toList ++ cs := by
    intro cs
    have hspace : skipBlanks (' ' :: (a.name.toList ++ cs)) = skipBlanks (a.name.toList ++ cs) := rfl
    rw [hspace, hname]
    exact skipBlanks_of_stops (stops_cons hblank _)
  have heq : ∀ v q, a.value = v → a.quote = q → a = { name := a.name, value := v, quote := q } := by
    rintro v q rfl rfl
    obtain ⟨n, v, q, enabled, key, hkey⟩ := a
    obtain rfl : enabled = true := ha.enabled
    subst hkey
    rfl
  cases hv : a.value with
  | none =>
    have hq : a.quote = none := by
      have := ha.value
      rwa [hv] at this
    have hread := row?_append ha.name_ne ha.name hrest.name
    have hassigned : assigned? rest = none := by
      rw [assigned?, hrest.assigned]
      rfl
    have hwrite : a.write ++ rest = ' ' :: (a.name.toList ++ rest) := by
      simp [Attribute.write, hv]
    rw [hwrite, hskip, attribute?, hread, Option.bind_eq_bind, Option.bind_some]
    dsimp only
    rw [hassigned]
    simp [← heq none none hv hq]
  | some value =>
    have hwrite : a.write ++ rest = ' ' :: (a.name.toList ++
        ('=' :: (a.quote.toList ++ value.toList ++ a.quote.toList ++ rest))) := by
      simp [Attribute.write, hv]
    have hread := row?_append ha.name_ne ha.name (stops_cons (c := '=') rfl
      (a.quote.toList ++ value.toList ++ a.quote.toList ++ rest))
    obtain ⟨hblanks, hvalue⟩ := value?_append hv ha.value hvalue
    have hassigned : assigned? ('=' :: (a.quote.toList ++ value.toList ++ a.quote.toList ++ rest)) =
        some ((value.toList, a.quote), rest) := by
      have hsign : after? ['='] (skipBlanks
          ('=' :: (a.quote.toList ++ value.toList ++ a.quote.toList ++ rest))) =
            some (a.quote.toList ++ value.toList ++ a.quote.toList ++ rest) :=
        after?_append ['='] _
      rw [assigned?, hsign, Option.bind_eq_bind, Option.bind_some, hblanks, hvalue]
    rw [hwrite, hskip, attribute?, hread, Option.bind_eq_bind, Option.bind_some]
    dsimp only
    rw [hassigned]
    simp [← heq (some value) a.quote hv rfl]

/-- The next attribute ends the one before it. -/
theorem endsAttribute_write {a : Attribute} (ha : a.Shaped) (rest : List Char) :
    EndsAttribute (a.write ++ rest) ∧ Stops isBareChar (a.write ++ rest) := by
  obtain ⟨c, name, hname⟩ := List.exists_cons_of_ne_nil ha.name_ne
  have hc : isAttributeNameChar c = true := ha.name c (by rw [hname]; exact List.mem_cons_self ..)
  obtain ⟨cs, hcs⟩ : ∃ cs, a.write ++ rest = ' ' :: c :: cs := by
    unfold Attribute.write
    split <;> exact ⟨_, by rw [hname]; simp; rfl⟩
  have hsign : '=' ≠ c := by
    rintro rfl
    exact absurd hc (by decide)
  rw [hcs]
  refine ⟨⟨stops_cons rfl _, ?_⟩, stops_cons rfl _⟩
  have hskip : skipBlanks (' ' :: c :: cs) = c :: cs :=
    skipBlanks_of_stops (stops_cons (not_isBlank_of_attributeName hc) cs)
  rw [hskip]
  exact after?_cons_of_ne hsign _ _

/-- All attributes are read again up to what ends the last of them. -/
theorem attributes_write {as : List Attribute} (has : ∀ a ∈ as, a.WellRead) {rest : List Char}
    (hends : EndsAttribute rest) (hlast : ∀ a, as.getLast? = some a → EndsValue a rest)
    (hnone : attribute? (skipBlanks rest) = none) :
    attributes (as.flatMap Attribute.write ++ rest) = (as, rest) := by
  induction as with
  | nil =>
    rw [List.flatMap_nil, List.nil_append]
    exact attributes_of_none hnone
  | cons a as ih =>
    have ha := has a (List.mem_cons_self ..)
    have hrest := ih (fun b hb => has b (List.mem_cons_of_mem _ hb)) fun b hb => by
      cases as with
      | nil => cases hb
      | cons _ _ => exact hlast b (by rw [List.getLast?_cons_cons]; exact hb)
    have hread : attribute? (skipBlanks (a.write ++ (as.flatMap Attribute.write ++ rest))) =
        some (a, as.flatMap Attribute.write ++ rest) := by
      cases as with
      | nil => exact attribute?_write ha hends (hlast a rfl)
      | cons b bs =>
        have hb := (has b (List.mem_cons_of_mem _ (List.mem_cons_self ..))).toShaped
        rw [List.flatMap_cons, List.append_assoc]
        obtain ⟨hnext, hstops⟩ := endsAttribute_write hb (bs.flatMap Attribute.write ++ rest)
        exact attribute?_write ha hnext (.inr (.inr hstops))
    rw [List.flatMap_cons, List.append_assoc, attributes_of_some hread, hrest]

/-- The end of a start tag. -/
theorem tagEnd?_write (selfClosed : Bool) (rest : List Char) :
    let cs := (if selfClosed then ['/', '>'] else ['>']) ++ rest
    EndsAttribute cs ∧ attribute? (skipBlanks cs) = none ∧ tagEnd? cs = some (selfClosed, rest) := by
  cases selfClosed with
  | true =>
    have hslash : after? ['/'] (skipBlanks ('/' :: '>' :: rest)) = some ('>' :: rest) :=
      after?_append ['/'] _
    have hend : after? ['>'] ('>' :: rest) = some rest := after?_append ['>'] _
    refine ⟨⟨stops_cons rfl _, rfl⟩, rfl, ?_⟩
    simp [tagEnd?, hslash, hend]
  | false =>
    have hslash : after? ['/'] (skipBlanks ('>' :: rest)) = none := rfl
    have hend : after? ['>'] (skipBlanks ('>' :: rest)) = some rest := after?_append ['>'] _
    refine ⟨⟨stops_cons rfl _, rfl⟩, rfl, ?_⟩
    simp [tagEnd?, hslash, hend]

/-- Attributes of which no two have the same name are kept as they are. -/
theorem foldl_push_eq (as : List Attribute) (start : Attributes)
    (h : (start.toList ++ as).map Attribute.key |>.Nodup) :
    as.foldl (fun as a => as.push a) start = ⟨start.toList ++ as⟩ := by
  induction as generalizing start with
  | nil => simp
  | cons a as ih =>
    have hnew : start.contains a.name = false := by
      rw [Bool.eq_false_iff, ne_eq, Attributes.contains_iff, ← a.key_eq]
      intro hmem
      rw [List.map_append, List.nodup_append] at h
      exact h.2.2 a.key hmem a.key (by simp) rfl
    have hpush : start.push a = ⟨start.toList ++ [a]⟩ := by
      rw [Attributes.push, hnew]
      rfl
    rw [List.foldl_cons, hpush, ih ⟨start.toList ++ [a]⟩ (by simpa using h)]
    simp

/-- **A start tag is read again as it is**, with all of its attributes. -/
theorem piece?_startTag {e : Element} (he : e.WellWritten) (rest : List Char) :
    piece? (e.write ++ rest) = some (.startTag e, rest) ∧
      tag? (e.write ++ rest) = some ⟨e.name, e.attributes.toList⟩ := by
  obtain ⟨c, row, hname, hc, -⟩ := he.name
  obtain ⟨hends, hnone, htagEnd⟩ := tagEnd?_write e.selfClosed rest
  have hlast : ∀ a, e.attributes.toList.getLast? = some a →
      EndsValue a ((if e.selfClosed then ['/', '>'] else ['>']) ++ rest) := by
    intro a ha
    cases hself : e.selfClosed with
    | true => exact (he.slash hself a ha).elim .inl fun h => .inr (.inl h)
    | false => exact .inr (.inr (stops_cons rfl rest))
  have hattributes := attributes_write he.attributes hends hlast hnone
  have hstops : Stops isNameChar (e.attributes.toList.flatMap Attribute.write ++
      ((if e.selfClosed then ['/', '>'] else ['>']) ++ rest)) := by
    cases e.attributes.toList with
    | nil => cases e.selfClosed <;> exact stops_cons rfl _
    | cons a as =>
      rw [List.flatMap_cons]
      unfold Attribute.write
      split <;> exact stops_cons rfl _
  have hread := name?_append he.name hstops
  have hwrite : e.write ++ rest = '<' :: (e.name.toList ++ (e.attributes.toList.flatMap
      Attribute.write ++ ((if e.selfClosed then ['/', '>'] else ['>']) ++ rest))) := by
    simp [Element.write]
  have helement : e = { name := e.name, attributes := e.attributes, selfClosed := e.selfClosed } := by
    obtain ⟨name, condition, attributes, enabled, ending, selfClosed⟩ := e
    obtain rfl : condition = none := he.condition
    obtain rfl : enabled = true := he.enabled
    obtain rfl : ending = .missing := he.ending
    rfl
  have hstart : startTag? (e.write ++ rest) = some (.startTag e, rest) := by
    have hopen : after? ['<'] (e.write ++ rest) = some (e.name.toList ++
        (e.attributes.toList.flatMap Attribute.write ++
          ((if e.selfClosed then ['/', '>'] else ['>']) ++ rest))) := by
      rw [hwrite]
      exact after?_append ['<'] _
    have hpush := foldl_push_eq e.attributes.toList {} (by simpa [Attributes.keys] using he.keys)
    simp only [startTag?, Option.bind_eq_bind, hopen, hread, hattributes, htagEnd, hpush,
      Option.bind_some]
    simp [← helement]
  refine ⟨?_, ?_⟩
  · have hbang : '!' ≠ c := by
      rintro rfl
      exact absurd hc (by decide)
    have hslash : '/' ≠ c := by
      rintro rfl
      exact absurd hc (by decide)
    have hcons : ∃ cs, e.write ++ rest = '<' :: c :: cs := ⟨_, by rw [hwrite, hname]; rfl⟩
    have hother : conditionalStart? (e.write ++ rest) = none ∧
        conditionalEnd? (e.write ++ rest) = none ∧ comment? (e.write ++ rest) = none ∧
          endTag? (e.write ++ rest) = none := by
      obtain ⟨cs, hcs⟩ := hcons
      rw [hcs]
      simp [conditionalStart?, openedCondition?, conditionalEnd?, afterConditionalEnd?, comment?,
        endTag?, endTagName?, afterOne?, after?, List.isPrefixOf, hbang, hslash]
    obtain ⟨h₁, h₂, h₃, h₄⟩ := hother
    rw [piece?, h₁, h₂, h₃, h₄, hstart]
    rfl
  · rw [hwrite, tag?_of_name? hread, hattributes, String.ofList_toList]

/-! ## End tags and conditional comments -/

theorem consumed_append (cs rest : List Char) : consumed (cs ++ rest) rest = String.ofList cs := by
  rw [consumed, List.length_append, Nat.add_sub_cancel, List.take_left]

/-- **An end tag is read again as it is.** -/
theorem piece?_endTag {name raw : String} (h : Piece.WellWritten (.endTag name raw))
    (rest : List Char) :
    piece? ((Piece.endTag name raw).write ++ rest) = some (.endTag name raw, rest) := by
  obtain ⟨hname, hraw⟩ := h
  have hread := name?_append hname (stops_cons (c := '>') rfl rest)
  have hopen : after? ['<', '/'] ('<' :: '/' :: (name.toList ++ '>' :: rest)) =
      some (name.toList ++ '>' :: rest) := after?_append ['<', '/'] _
  have hclose : after? ['>'] (skipBlanks ('>' :: rest)) = some rest := after?_append ['>'] rest
  have hend : endTagName? ('<' :: '/' :: (name.toList ++ '>' :: rest)) = some (name.toList, rest) := by
    simp only [endTagName?, Option.bind_eq_bind, hopen, hread, hclose, Option.bind_some]
    rfl
  have hwrite : (Piece.endTag name raw).write ++ rest =
      '<' :: '/' :: (name.toList ++ '>' :: rest) := by
    simp [Piece.write, hraw]
  have htext : consumed ('<' :: '/' :: (name.toList ++ '>' :: rest)) rest = raw := by
    have hsplit : '<' :: '/' :: (name.toList ++ '>' :: rest) = raw.toList ++ rest := by
      simp [hraw]
    rw [hsplit, consumed_append, String.ofList_toList]
  have hother : ∀ cs, conditionalStart? ('<' :: '/' :: cs) = none ∧
      conditionalEnd? ('<' :: '/' :: cs) = none ∧ comment? ('<' :: '/' :: cs) = none := by
    intro cs
    simp [conditionalStart?, openedCondition?, conditionalEnd?, afterConditionalEnd?, comment?,
      afterOne?, after?, List.isPrefixOf]
  obtain ⟨h₁, h₂, h₃⟩ := hother (name.toList ++ '>' :: rest)
  rw [hwrite, piece?, h₁, h₂, h₃, endTag?, hend, Option.map_some]
  dsimp only
  rw [htext, String.ofList_toList]
  rfl

/-- What may follow the opener of a conditional comment, so that it ends there. -/
def EndsCondition (rest : List Char) : Prop :=
  after? ['<', '!', '-', '-', '>'] rest = none

/-- **The opener of a conditional comment is read again as it is**, unless an empty comment opener
follows, which would belong to it. -/
theorem piece?_conditionalStart {e : Element} (h : Piece.WellWritten (.conditionalStart e))
    {rest : List Char} (hrest : EndsCondition rest) :
    piece? ((Piece.conditionalStart e).write ++ rest) = some (.conditionalStart e, rest) := by
  obtain ⟨name, condition, rfl, ⟨row, hcondition, hne, hrow⟩, hname⟩ := h
  have hwrite : (Piece.conditionalStart { name := name, condition := some condition }).write ++
      rest = ['<', '!', '-', '-', '['] ++ (['i', 'f'] ++ (row ++ (']' :: '>' :: rest))) := by
    simp [Piece.write, hname, hcondition]
  have hopen : ∀ cs, afterOne? [['<', '!', '-', '-', '['], ['<', '!', '[']]
      (['<', '!', '-', '-', '['] ++ cs) = some cs := by
    intro cs
    rw [afterOne?, List.findSome?_cons, after?_append]
  have hclose : afterOne? [[']', '>', '<', '!', '-', '-', '>'], [']', '-', '-', '>'], [']', '>']]
      (']' :: '>' :: rest) = some rest := by
    have hlong : after? [']', '>', '<', '!', '-', '-', '>'] (']' :: '>' :: rest) = none := by
      unfold EndsCondition after? at hrest
      split at hrest
      · cases hrest
      · next hprefix =>
        rw [after?, if_neg]
        simpa [List.isPrefixOf] using hprefix
    have hshort : after? [']', '-', '-', '>'] (']' :: '>' :: rest) = none := by
      simp [after?, List.isPrefixOf]
    have hlast : after? [']', '>'] (']' :: '>' :: rest) = some rest := after?_append [']', '>'] rest
    simp [afterOne?, hlong, hshort, hlast]
  have hread : openedCondition? (['<', '!', '-', '-', '['] ++ (['i', 'f'] ++
      (row ++ (']' :: '>' :: rest)))) = some (condition.toList, rest) := by
    have hrow := row?_append hne hrow (stops_cons (c := ']') (by decide) ('>' :: rest))
    simp only [openedCondition?, Option.bind_eq_bind, hopen, condition?, after?_append, hrow,
      Option.bind_some, hcondition]
    simp [hclose]
  have htext : consumed (['<', '!', '-', '-', '['] ++ (['i', 'f'] ++
      (row ++ (']' :: '>' :: rest)))) rest = name := by
    have hsplit : ['<', '!', '-', '-', '['] ++ (['i', 'f'] ++ (row ++ (']' :: '>' :: rest))) =
        name.toList ++ rest := by
      simp [hname, hcondition]
    rw [hsplit, consumed_append, String.ofList_toList]
  rw [hwrite, piece?, conditionalStart?, hread, Option.map_some]
  dsimp only
  rw [htext, String.ofList_toList]
  rfl

/-- **The closer of a conditional comment is read again as it is.** -/
theorem piece?_conditionalEnd (rest : List Char) :
    piece? ((Piece.conditionalEnd "<![endif]-->").write ++ rest) =
      some (.conditionalEnd "<![endif]-->", rest) := by
  have hwrite : (Piece.conditionalEnd "<![endif]-->").write ++ rest =
      '<' :: '!' :: '[' :: 'e' :: 'n' :: 'd' :: 'i' :: 'f' :: ']' :: '-' :: '-' :: '>' :: rest := by
    simp [Piece.write]
  have hno : conditionalStart? ((Piece.conditionalEnd "<![endif]-->").write ++ rest) = none := by
    rw [hwrite]
    simp [conditionalStart?, openedCondition?, afterOne?, condition?, after?]
  have hyes : afterConditionalEnd? ((Piece.conditionalEnd "<![endif]-->").write ++ rest) =
      some rest := by
    have hskip : skipBlanks (']' :: '-' :: '-' :: '>' :: rest) = ']' :: '-' :: '-' :: '>' :: rest :=
      skipBlanks_of_stops (stops_cons rfl _)
    rw [hwrite]
    simp [afterConditionalEnd?, afterOne?, after?, hskip]
  rw [piece?, hno, conditionalEnd?, hyes, Option.map_some, consumed_append]
  rfl

/-! ## Comments -/

/-- The body of a comment that is read again as the opener of a conditional one. -/
def IsConditionBody (body : List Char) : Prop :=
  ∃ condition, IsCondition condition ∧ body = '[' :: condition ++ [']']

theorem eq_append_of_afterOne? {starts : List (List Char)} {cs rest : List Char}
    (h : afterOne? starts cs = some rest) : ∃ start ∈ starts, cs = start ++ rest := by
  obtain ⟨start, hmem, hstart⟩ := List.exists_of_findSome?_eq_some h
  exact ⟨start, hmem, eq_append_of_after? hstart⟩

theorem eq_append_of_openedCondition? {cs condition rest : List Char}
    (h : openedCondition? cs = some (condition, rest)) :
    IsCondition condition ∧ ∃ start ∈ [['<', '!', '-', '-', '['], ['<', '!', '[']],
      ∃ close ∈ [[']', '>', '<', '!', '-', '-', '>'], [']', '-', '-', '>'], [']', '>']],
        cs = start ++ condition ++ close ++ rest := by
  simp only [openedCondition?, Option.bind_eq_bind, Option.bind_eq_some_iff, Prod.exists] at h
  obtain ⟨cs₁, hopen, condition, cs₂, hcondition, cs₃, hclose, heq⟩ := h
  cases heq
  refine ⟨isCondition_of_condition? hcondition, ?_⟩
  obtain ⟨start, hstart, rfl⟩ := eq_append_of_afterOne? hopen
  obtain ⟨close, hmem, rfl⟩ := eq_append_of_afterOne? hclose
  refine ⟨start, hstart, close, hmem, ?_⟩
  simp only [condition?, Option.bind_eq_bind, Option.bind_eq_some_iff, Prod.exists] at hcondition
  obtain ⟨cs₃, hif, row, cs₄, hrow, heq⟩ := hcondition
  cases heq
  rw [eq_append_of_after? hif, eq_append_of_row? hrow]
  simp

theorem eq_append_of_afterConditionalEnd? {cs rest : List Char}
    (h : afterConditionalEnd? cs = some rest) :
    ∃ start ∈ [['<', '!', '-', '-', '<', '!', '['], ['<', '!', '-', '-', '['], ['<', '!', '[']],
      ∃ blanks, (∀ c ∈ blanks, isBlank c = true) ∧ ∃ close ∈ [[']', '-', '-', '>'], [']', '>']],
        cs = start ++ ['e', 'n', 'd', 'i', 'f'] ++ blanks ++ close ++ rest := by
  simp only [afterConditionalEnd?, Option.bind_eq_bind, Option.bind_eq_some_iff] at h
  obtain ⟨cs₁, hopen, cs₂, hend, hclose⟩ := h
  obtain ⟨start, hstart, rfl⟩ := eq_append_of_afterOne? hopen
  obtain ⟨close, hmem, hsplit⟩ := eq_append_of_afterOne? hclose
  refine ⟨start, hstart, cs₂.takeWhile isBlank,
    fun c hc => List.all_eq_true.1 List.all_takeWhile c hc, close, hmem, ?_⟩
  have hblanks : cs₂ = cs₂.takeWhile isBlank ++ (close ++ rest) := by
    rw [← hsplit]
    exact List.takeWhile_append_dropWhile.symm
  rw [eq_append_of_after? hend, List.append_assoc, List.append_assoc, ← hblanks,
    List.append_assoc]

/-- A comment without angle brackets in its body is cut off at its first `>`, after two dashes. If
it is read as something else that ends with a bracket, then all of it is. -/
theorem cut_comment {body : String} (h : NoAngles body.toList) {rest inner close rest' : List Char}
    (hinner : '>' ∉ inner)
    (hclose : close ∈ [[']', '>', '<', '!', '-', '-', '>'], [']', '-', '-', '>'], [']', '>']])
    (hsplit : (Piece.comment body).write ++ rest = inner ++ close ++ rest') :
    ['<', '!', '-', '-'] ++ body.toList = inner ++ [']'] ∧ rest' = rest := by
  have hwrite : (Piece.comment body).write ++ rest =
      (['<', '!', '-', '-'] ++ body.toList ++ ['-', '-']) ++ '>' :: rest := by
    simp [Piece.write]
  have hnot : '>' ∉ ['<', '!', '-', '-'] ++ body.toList ++ ['-', '-'] := by
    simpa using h.2
  have hcut : ∀ before after : List Char, close = before ++ '>' :: after → '>' ∉ before →
      ['<', '!', '-', '-'] ++ body.toList ++ ['-', '-'] = inner ++ before ∧
        rest = after ++ rest' := by
    intro before after hbefore hmem
    refine append_cons_inj hnot (by simp [hinner, hmem]) ?_
    rw [← hwrite, hsplit, hbefore]
    simp
  have hdash : ['<', '!', '-', '-'] ++ body.toList ++ ['-', '-'] ≠ inner ++ [']'] := by
    intro heq
    have hlast := congrArg List.getLast? heq
    rw [List.getLast?_append, List.getLast?_append] at hlast
    exact absurd hlast (by simp)
  simp only [List.mem_cons, List.not_mem_nil, or_false] at hclose
  rcases hclose with rfl | rfl | rfl
  · exact absurd (hcut [']'] ['<', '!', '-', '-', '>'] rfl (by decide)).1 hdash
  · obtain ⟨heq, hrest⟩ := hcut [']', '-', '-'] [] rfl (by decide)
    refine ⟨?_, hrest.symm⟩
    apply (List.append_left_inj ['-', '-']).1
    rw [heq]
    simp
  · exact absurd (hcut [']'] [] rfl (by decide)).1 hdash

/-- If a comment is read again as the opener of a conditional one, then all of it is. -/
theorem conditionalStart?_comment {body : String} (h : NoAngles body.toList) {rest rest' : List Char}
    {p : Piece} (hread : conditionalStart? ((Piece.comment body).write ++ rest) = some (p, rest')) :
    (∃ e, p = .conditionalStart e) ∧ IsConditionBody body.toList ∧ rest' = rest := by
  obtain ⟨⟨condition, rest''⟩, hopened, heq⟩ := Option.map_eq_some_iff.1 hread
  cases heq
  obtain ⟨hcondition, start, hstart, close, hclose, hsplit⟩ := eq_append_of_openedCondition? hopened
  have hinner : '>' ∉ start ++ condition := by
    obtain ⟨row, rfl, -, hchars⟩ := hcondition
    intro hmem
    rcases List.mem_append.1 hmem with hmem | hmem
    · simp only [List.mem_cons, List.not_mem_nil, or_false] at hstart
      rcases hstart with rfl | rfl <;> exact absurd hmem (by decide)
    · exact absurd (hchars '>' (by simpa using hmem)) (by decide)
  obtain ⟨heq, hrest⟩ := cut_comment h hinner hclose hsplit
  refine ⟨⟨_, rfl⟩, ⟨condition, hcondition, ?_⟩, hrest⟩
  simp only [List.mem_cons, List.not_mem_nil, or_false] at hstart
  rcases hstart with rfl | rfl
  · simpa using heq
  · simp at heq

/-- If a comment is read again as the closer of a conditional one, then all of it is. -/
theorem conditionalEnd?_comment {body : String} (h : NoAngles body.toList) {rest rest' : List Char}
    {p : Piece} (hread : conditionalEnd? ((Piece.comment body).write ++ rest) = some (p, rest')) :
    (∃ raw, p = .conditionalEnd raw) ∧ IsClosingBody body.toList ∧ rest' = rest := by
  obtain ⟨rest'', hafter, heq⟩ := Option.map_eq_some_iff.1 hread
  cases heq
  obtain ⟨start, hstart, blanks, hblanks, close, hclose, hsplit⟩ :=
    eq_append_of_afterConditionalEnd? hafter
  have hinner : '>' ∉ start ++ ['e', 'n', 'd', 'i', 'f'] ++ blanks := by
    intro hmem
    rcases List.mem_append.1 hmem with hmem | hmem
    · simp only [List.mem_cons, List.not_mem_nil, or_false] at hstart
      rcases hstart with rfl | rfl | rfl <;> exact absurd hmem (by decide)
    · exact absurd (hblanks '>' hmem) (by decide)
  obtain ⟨heq, hrest⟩ := cut_comment h hinner (List.mem_cons_of_mem _ hclose) hsplit
  refine ⟨⟨_, rfl⟩, ⟨blanks, hblanks, ?_⟩, hrest⟩
  simp only [List.mem_cons, List.not_mem_nil, or_false] at hstart
  rcases hstart with rfl | rfl | rfl
  · have hbody : body.toList = '<' :: '!' :: '[' :: 'e' :: 'n' :: 'd' :: 'i' :: 'f' ::
        (blanks ++ [']']) := by simpa using heq
    exact absurd (hbody ▸ List.mem_cons_self ..) h.1
  · simpa using heq
  · simp at heq

/-- The end of a comment does not start before the body is over. -/
theorem eq_nil_of_append_end {body rest rest' : List Char} (h : ¬ ['-', '-', '>'] <:+: body)
    (heq : body ++ '-' :: '-' :: '>' :: rest = '-' :: '-' :: '>' :: rest') : body = [] := by
  match body with
  | [] => rfl
  | [c] => simp at heq
  | [c, d] => simp at heq
  | c :: d :: e :: body =>
    simp only [List.cons_append, List.cons.injEq] at heq
    obtain ⟨rfl, rfl, rfl, -⟩ := heq
    exact absurd ⟨[], body, rfl⟩ h

theorem commentBody?_append {body : List Char} (h : ¬ ['-', '-', '>'] <:+: body)
    (rest : List Char) :
    commentBody? (body ++ '-' :: '-' :: '>' :: rest) = some (body, rest) := by
  induction body with
  | nil =>
    have hend : after? ['-', '-', '>'] ('-' :: '-' :: '>' :: rest) = some rest :=
      after?_append ['-', '-', '>'] rest
    rw [List.nil_append, commentBody?, hend]
  | cons c body ih =>
    have hnone : after? ['-', '-', '>'] (c :: (body ++ '-' :: '-' :: '>' :: rest)) = none := by
      cases hafter : after? ['-', '-', '>'] (c :: (body ++ '-' :: '-' :: '>' :: rest)) with
      | none => rfl
      | some rest' => cases eq_nil_of_append_end h (eq_append_of_after? hafter)
    rw [List.cons_append, commentBody?, hnone, ih fun hpart => h (hpart.trans ⟨[c], [], by simp⟩)]
    rfl

/-- **A comment is read again as it is, or as a conditional one**, whatever follows it. -/
theorem piece?_comment {body : String} (h : NoAngles body.toList) (rest : List Char) :
    ∃ p, piece? ((Piece.comment body).write ++ rest) = some (p, rest) ∧
      (p = .comment body ∨ (∃ e, p = .conditionalStart e) ∧ IsConditionBody body.toList ∨
        (∃ raw, p = .conditionalEnd raw) ∧ IsClosingBody body.toList) := by
  cases hstart : conditionalStart? ((Piece.comment body).write ++ rest) with
  | some r =>
    obtain ⟨p, rest'⟩ := r
    obtain ⟨hp, hbody, rfl⟩ := conditionalStart?_comment h hstart
    refine ⟨p, ?_, .inr (.inl ⟨hp, hbody⟩)⟩
    rw [piece?, hstart]
    rfl
  | none =>
    cases hend : conditionalEnd? ((Piece.comment body).write ++ rest) with
    | some r =>
      obtain ⟨p, rest'⟩ := r
      obtain ⟨hp, hbody, rfl⟩ := conditionalEnd?_comment h hend
      refine ⟨p, ?_, .inr (.inr ⟨hp, hbody⟩)⟩
      rw [piece?, hstart, hend]
      rfl
    | none =>
      refine ⟨.comment body, ?_, .inl rfl⟩
      have hwrite : (Piece.comment body).write ++ rest =
          ['<', '!', '-', '-'] ++ (body.toList ++ '-' :: '-' :: '>' :: rest) := by
        simp [Piece.write]
      have hbody : ¬ ['-', '-', '>'] <:+: body.toList := fun hpart => h.2 (hpart.mem (by simp))
      have hcomment : comment? ((Piece.comment body).write ++ rest) = some (.comment body, rest) := by
        simp only [hwrite, comment?, Option.bind_eq_bind, after?_append, Option.bind_some,
          commentBody?_append hbody, String.ofList_toList]
        rfl
      rw [piece?, hstart, hend, hcomment]
      rfl

/-! ## Texts -/

/-- A text in which no tag starts is read up to the next `<`. -/
theorem piece?_text {cs : List Char} (hne : cs ≠ []) (h : '<' ∉ cs) (rest : List Char) :
    piece? (cs ++ rest) = some (.text (String.ofList (cs ++ rest.takeWhile (· != '<'))),
      rest.dropWhile (· != '<')) := by
  obtain ⟨c, cs, rfl⟩ := List.exists_cons_of_ne_nil hne
  have hc : '<' ≠ c := by
    rintro rfl
    exact h (List.mem_cons_self ..)
  have hrow : ∀ d ∈ c :: cs, (d != '<') = true := by
    intro d hd
    simpa using fun heq : d = '<' => h (heq ▸ hd)
  have htext : text? (c :: cs ++ rest) = some (.text (String.ofList (c :: cs ++
      rest.takeWhile (· != '<'))), rest.dropWhile (· != '<')) := by
    rw [text?, row?, List.takeWhile_append_of_pos hrow, List.dropWhile_append_of_pos hrow]
    rfl
  have hother : conditionalStart? (c :: cs ++ rest) = none ∧ conditionalEnd? (c :: cs ++ rest) = none ∧
      comment? (c :: cs ++ rest) = none ∧ endTag? (c :: cs ++ rest) = none ∧
        startTag? (c :: cs ++ rest) = none := by
    simp [conditionalStart?, openedCondition?, conditionalEnd?, afterConditionalEnd?, comment?,
      endTag?, endTagName?, startTag?, afterOne?, after?, List.isPrefixOf, hc]
  obtain ⟨h₁, h₂, h₃, h₄, h₅⟩ := hother
  rw [piece?, h₁, h₂, h₃, h₄, h₅, htext]
  rfl

/-- The text up to the next `<` is one unit, if there is any. -/
theorem units_eq_text (cs : List Char) :
    units cs = (if cs.takeWhile (· != '<') = [] then []
      else [(.text (String.ofList (cs.takeWhile (· != '<'))), none)]) ++
        units (cs.dropWhile (· != '<')) := by
  have hsplit := List.takeWhile_append_dropWhile (p := (· != '<')) (l := cs)
  have hmem : '<' ∉ cs.takeWhile (· != '<') := by
    intro hmem
    simpa using List.all_eq_true.1 List.all_takeWhile '<' hmem
  have hstops : Stops (· != '<') (cs.dropWhile (· != '<')) := by
    intro c hc
    simpa [hc] using List.head?_dropWhile_not (· != '<') cs
  obtain ⟨htake, hdrop⟩ := dropWhile_of_stops hstops
  by_cases hne : cs.takeWhile (· != '<') = []
  · rw [if_pos hne, List.nil_append]
    rw [hne, List.nil_append] at hsplit
    rw [hsplit]
  · have hread := piece?_text hne hmem (cs.dropWhile (· != '<'))
    rw [hsplit, htake, hdrop, List.append_nil] at hread
    rw [if_neg hne, units_of_piece? hread]
    rfl

/-- **Texts run together**: a text before another text is read as a part of it. -/
theorem units_text {cs : List Char} (hne : cs ≠ []) (h : '<' ∉ cs) (rest : List Char) :
    units (cs ++ rest) = (.text (String.ofList (cs ++ rest.takeWhile (· != '<'))), none) ::
      units (rest.dropWhile (· != '<')) := by
  rw [units_of_piece? (piece?_text hne h rest)]
  rfl

end Reader

/-! ## Tags of a text -/

/-- A tag of a text, without its place. -/
inductive ReadTag where
  | opening (tag : WrittenTag)
  | closing (name : String)
  deriving DecidableEq, Repr

/-- The tag that a unit is, if it is one. -/
def ReadTag.ofUnit? : Piece × Option WrittenTag → Option ReadTag
  | (_, some tag) => some (.opening tag)
  | (.endTag name _, none) => some (.closing name)
  | _ => none

/-- The start tags and end tags of a text in order. -/
def Markup.tags (input : String) : List ReadTag :=
  (units input).filterMap ReadTag.ofUnit?

/-- The tag that a piece is, if it is one. -/
def Piece.tag? : Piece → Option ReadTag
  | .startTag e => some (.opening ⟨e.name, e.attributes.toList⟩)
  | .endTag name _ => some (.closing name)
  | _ => none

namespace Reader

theorem endsCondition_write {ps : List Piece} (h : ∀ p ∈ ps, p.WellWritten) :
    EndsCondition (ps.flatMap Piece.write) := by
  induction ps with
  | nil => rfl
  | cons p ps ih =>
    have hp := h p (List.mem_cons_self ..)
    have hrest := ih fun q hq => h q (List.mem_cons_of_mem _ hq)
    rw [List.flatMap_cons, EndsCondition]
    cases p with
    | text raw =>
      cases hraw : raw.toList with
      | nil =>
        rw [Piece.write, hraw]
        exact hrest
      | cons c cs =>
        have hc : '<' ≠ c := by
          rintro rfl
          exact hp.1 (by rw [hraw]; exact List.mem_cons_self ..)
        rw [Piece.write, hraw]
        exact after?_cons_of_ne hc _ _
    | comment body =>
      have hbody : NoAngles body.toList := hp
      cases hraw : body.toList with
      | nil => simp [Piece.write, hraw, after?, List.isPrefixOf]
      | cons c cs =>
        have hc : '>' ≠ c := by
          rintro rfl
          exact hbody.2 (by rw [hraw]; exact List.mem_cons_self ..)
        simp [Piece.write, hraw, after?, List.isPrefixOf, hc]
    | startTag e =>
      obtain ⟨c, row, hname, hc, -⟩ := hp.name
      have hbang : '!' ≠ c := by
        rintro rfl
        exact absurd hc (by decide)
      simp [Piece.write, Element.write, hname, after?, List.isPrefixOf, hbang]
    | endTag name raw => simp [Piece.write, hp.2, after?, List.isPrefixOf]
    | conditionalStart e =>
      obtain ⟨name, condition, rfl, -, hname⟩ := hp
      simp [Piece.write, hname, after?, List.isPrefixOf]
    | conditionalEnd raw =>
      obtain rfl : raw = "<![endif]-->" := hp
      simp [Piece.write, after?, List.isPrefixOf]

/-- **The tags of pieces are read again**, one after the other and no others. The induction is on
the pieces: none of them can become a part of a tag. -/
theorem tags_write {ps : List Piece} (h : ∀ p ∈ ps, p.WellWritten) :
    (units (ps.flatMap Piece.write)).filterMap ReadTag.ofUnit? = ps.filterMap Piece.tag? := by
  induction ps with
  | nil => simp
  | cons p ps ih =>
    have hp := h p (List.mem_cons_self ..)
    have hps : ∀ q ∈ ps, q.WellWritten := fun q hq => h q (List.mem_cons_of_mem _ hq)
    have hrest := ih hps
    rw [List.flatMap_cons]
    cases p with
    | text raw =>
      rw [List.filterMap_cons_none rfl]
      by_cases hne : raw.toList = []
      · rw [Piece.write, hne]
        exact hrest
      · rw [units_eq_text] at hrest
        rw [Piece.write, units_text hne hp.1, List.filterMap_cons_none rfl, ← hrest]
        split <;> rfl
    | comment body =>
      obtain ⟨q, hread, hq⟩ := piece?_comment hp (ps.flatMap Piece.write)
      rw [units_of_piece? hread, List.filterMap_cons, List.filterMap_cons, hrest]
      rcases hq with rfl | ⟨⟨e, rfl⟩, -⟩ | ⟨⟨raw, rfl⟩, -⟩ <;> rfl
    | startTag e =>
      obtain ⟨hread, htag⟩ := piece?_startTag hp (ps.flatMap Piece.write)
      rw [Piece.write, units_of_piece? hread, tagOf?, htag, List.filterMap_cons,
        List.filterMap_cons, hrest]
      rfl
    | endTag name raw =>
      rw [units_of_piece? (piece?_endTag hp _), List.filterMap_cons, List.filterMap_cons, hrest]
      rfl
    | conditionalStart e =>
      rw [units_of_piece? (piece?_conditionalStart hp (endsCondition_write hps)),
        List.filterMap_cons, List.filterMap_cons, hrest]
      rfl
    | conditionalEnd raw =>
      obtain rfl : raw = "<![endif]-->" := hp
      rw [units_of_piece? (piece?_conditionalEnd _), List.filterMap_cons, List.filterMap_cons,
        hrest]
      rfl

end Reader

end MarkupFilter
