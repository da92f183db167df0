import MarkupFilter.Proofs.Markup.Reader

/-!
# The shape of pieces

What is known of a piece from its having been read: which characters its names, values and
conditions are made of, and that its element is as it was written.

## Main definitions

* `Attribute.WellRead`, `Element.WellRead`, `Piece.WellRead` — the shapes.

## Main results

* `Reader.wellRead_pieces` — all pieces of a text have their shape.
-/

set_option autoImplicit false

namespace MarkupFilter

open Reader

/-! ## Shapes -/

/-- The characters of a name of a tag. -/
def IsTagName (cs : List Char) : Prop :=
  ∃ c rest, cs = c :: rest ∧ isNameStart c = true ∧ ∀ d ∈ rest, isNameChar d = true

/-- The characters of a value without quotes. -/
def IsBareValue (cs : List Char) : Prop :=
  ∃ c rest, cs = c :: rest ∧ isBareStart c = true ∧ ∀ d ∈ rest, isBareChar d = true

/-- The characters of a condition. -/
def IsCondition (cs : List Char) : Prop :=
  ∃ row, cs = 'i' :: 'f' :: row ∧ row ≠ [] ∧ ∀ c ∈ row, isConditionChar c = true

/-- The body of what would be a comment, but closes a conditional one. -/
def IsClosingBody (body : List Char) : Prop :=
  ∃ blanks, (∀ c ∈ blanks, isBlank c = true) ∧
    body = ['[', 'e', 'n', 'd', 'i', 'f'] ++ blanks ++ [']']

/-- A value fits its quotes. -/
def FitsQuotes : Option String → Option Char → Prop
  | none, quote => quote = none
  | some value, none => IsBareValue value.toList
  | some value, some q => (q = '"' ∨ q = '\'') ∧ q ∉ value.toList

/-- The name of an attribute and its value can be written. -/
structure Attribute.Shaped (a : Attribute) : Prop where
  name_ne : a.name.toList ≠ []
  name : ∀ c ∈ a.name.toList, isAttributeNameChar c = true
  value : FitsQuotes a.value a.quote

/-- An attribute as it was written. -/
structure Attribute.WellRead (a : Attribute) : Prop extends a.Shaped where
  enabled : a.enabled = true

/-- The element of a start tag as it was written. -/
structure Element.WellRead (e : Element) : Prop where
  name : IsTagName e.name.toList
  condition : e.condition = none
  enabled : e.enabled = true
  ending : e.ending = .missing
  attributes : ∀ a ∈ e.attributes.toList, a.WellRead
  keys : e.attributes.keys.Nodup

/-- A piece as it was written. -/
def Piece.WellRead : Piece → Prop
  | .text raw => raw = "<" ∨ raw.toList ≠ [] ∧ '<' ∉ raw.toList
  | .comment body => ¬ IsClosingBody body.toList
  | .startTag e => e.WellRead
  | .endTag name _ => IsTagName name.toList
  | .conditionalStart e => ∃ name condition, e = { name := name, condition := some condition } ∧
      name.toList.head? = some '<' ∧ IsCondition condition.toList
  | .conditionalEnd _ => True

/-! ## What is read has its shape -/

namespace Reader

theorem of_row? {p : Char → Bool} {cs row rest : List Char} (h : row? p cs = some (row, rest)) :
    row ≠ [] ∧ ∀ c ∈ row, p c = true := by
  unfold row? at h
  split at h
  · cases h
  · next hne =>
    cases h
    exact ⟨fun hnil => hne (by rw [hnil]; rfl), fun c hc => List.all_eq_true.1
      List.all_takeWhile c hc⟩

theorem of_char? {p : Char → Bool} {c : Char} {cs rest : List Char}
    (h : char? p cs = some (c, rest)) : p c = true := by
  cases cs with
  | nil => cases h
  | cons c' cs =>
    simp only [char?] at h
    split at h
    · next hc => cases h; exact hc
    · cases h

theorem isTagName_of_name? {cs name rest : List Char} (h : name? cs = some (name, rest)) :
    IsTagName name := by
  simp only [name?, Option.bind_eq_bind, Option.bind_eq_some_iff, Prod.exists] at h
  obtain ⟨c, cs₁, hc, heq⟩ := h
  cases heq
  exact ⟨c, _, rfl, of_char? hc, fun d hd => List.all_eq_true.1 List.all_takeWhile d hd⟩

theorem isBareValue_of_bareValue? {cs value rest : List Char}
    (h : bareValue? cs = some (value, rest)) : IsBareValue value := by
  simp only [bareValue?, Option.bind_eq_bind, Option.bind_eq_some_iff, Prod.exists] at h
  obtain ⟨c, cs₁, hc, heq⟩ := h
  cases heq
  exact ⟨c, _, rfl, of_char? hc, fun d hd => List.all_eq_true.1 List.all_takeWhile d hd⟩

theorem fitsQuotes_of_quotedValue? {quote : Char} {cs rest : List Char}
    {v : List Char × Option Char} (h : quotedValue? quote cs = some (v, rest)) :
    v.2 = some quote ∧ quote ∉ v.1 := by
  simp only [quotedValue?, Option.bind_eq_bind, Option.bind_eq_some_iff] at h
  obtain ⟨cs₁, h₁, cs₂, h₂, heq⟩ := h
  cases heq
  refine ⟨rfl, fun hmem => ?_⟩
  have := List.all_eq_true.1 List.all_takeWhile quote hmem
  simp at this

theorem fitsQuotes_of_value? {cs rest : List Char} {v : List Char × Option Char}
    (h : value? cs = some (v, rest)) : FitsQuotes (some (String.ofList v.1)) v.2 := by
  obtain ⟨value, quote⟩ := v
  simp only [value?, Option.orElse_eq_orElse, Option.orElse_eq_or, Option.or_eq_some_iff] at h
  rcases h with h | ⟨-, h | ⟨-, h⟩⟩
  · obtain ⟨hquote, hmem⟩ := fitsQuotes_of_quotedValue? h
    cases hquote
    exact ⟨.inl rfl, by simpa using hmem⟩
  · obtain ⟨hquote, hmem⟩ := fitsQuotes_of_quotedValue? h
    cases hquote
    exact ⟨.inr rfl, by simpa using hmem⟩
  · obtain ⟨⟨value', rest'⟩, hbare, heq⟩ := Option.map_eq_some_iff.1 h
    cases heq
    simpa [FitsQuotes] using isBareValue_of_bareValue? hbare

theorem wellRead_of_attribute? {cs rest : List Char} {a : Attribute}
    (h : attribute? cs = some (a, rest)) : a.WellRead := by
  simp only [attribute?, Option.bind_eq_bind, Option.bind_eq_some_iff, Prod.exists] at h
  obtain ⟨name, cs₁, hname, h⟩ := h
  obtain ⟨hne, hall⟩ := of_row? hname
  split at h
  · next hassigned =>
    cases h
    simp only [assigned?, Option.bind_eq_bind, Option.bind_eq_some_iff] at hassigned
    obtain ⟨cs₂, -, hvalue⟩ := hassigned
    exact ⟨⟨by simpa using hne, by simpa using hall, fitsQuotes_of_value? hvalue⟩, rfl⟩
  · cases h
    exact ⟨⟨by simpa using hne, by simpa using hall, rfl⟩, rfl⟩

theorem wellRead_of_attributes (cs : List Char) : ∀ a ∈ (attributes cs).1, a.WellRead := by
  induction hn : cs.length using Nat.strongRecOn generalizing cs with
  | _ n ih =>
    intro a ha
    cases hread : attribute? (skipBlanks cs) with
    | none =>
      rw [attributes_of_none hread] at ha
      cases ha
    | some r =>
      obtain ⟨b, rest⟩ := r
      rw [attributes_of_some hread] at ha
      rcases List.mem_cons.1 ha with rfl | hmem
      · exact wellRead_of_attribute? hread
      · have h₁ := length_lt_of_attribute? hread
        have h₂ := length_dropWhile_le isBlank cs
        unfold skipBlanks at h₁
        exact ih rest.length (by omega) rest rfl a hmem

/-- Attributes put together one by one keep what all of them have, and no name occurs twice. -/
theorem foldl_push (as : List Attribute) (start : Attributes)
    (has : ∀ a ∈ as, a.WellRead) (hstart : ∀ a ∈ start.toList, a.WellRead)
    (hkeys : start.keys.Nodup) :
    (∀ a ∈ (as.foldl (fun as a => as.push a) start).toList, a.WellRead) ∧
      (as.foldl (fun as a => as.push a) start).keys.Nodup := by
  induction as generalizing start with
  | nil => exact ⟨hstart, hkeys⟩
  | cons a as ih =>
    rw [List.foldl_cons]
    refine ih _ (fun b hb => has b (List.mem_cons_of_mem _ hb)) (fun b hb => ?_) ?_
    · unfold Attributes.push at hb
      split at hb
      · exact hstart b hb
      · rcases List.mem_append.1 hb with hb | hb
        · exact hstart b hb
        · obtain rfl := List.mem_singleton.1 hb
          exact has b (List.mem_cons_self ..)
    · rw [Attributes.keys_push]
      split
      · exact hkeys
      · next hkey =>
        rw [List.nodup_append]
        refine ⟨hkeys, by simp, fun k hk k' hk' => ?_⟩
        rw [List.mem_singleton] at hk'
        exact fun heq => hkey (hk' ▸ heq ▸ hk)

theorem wellRead_of_startTag? {cs rest : List Char} {p : Piece}
    (h : startTag? cs = some (p, rest)) : p.WellRead := by
  simp only [startTag?, Option.bind_eq_bind, Option.bind_eq_some_iff, Prod.exists] at h
  obtain ⟨cs₁, h₁, name, cs₂, h₂, b, cs₃, h₃, heq⟩ := h
  cases heq
  obtain ⟨hall, hkeys⟩ := foldl_push (attributes cs₂).1 {} (wellRead_of_attributes cs₂)
    (fun _ h => absurd h List.not_mem_nil) List.nodup_nil
  exact ⟨by simpa using isTagName_of_name? h₂, rfl, rfl, rfl, hall, hkeys⟩

theorem wellRead_of_endTag? {cs rest : List Char} {p : Piece}
    (h : endTag? cs = some (p, rest)) : p.WellRead := by
  obtain ⟨⟨name, rest'⟩, hread, heq⟩ := Option.map_eq_some_iff.1 h
  cases heq
  simp only [endTagName?, Option.bind_eq_bind, Option.bind_eq_some_iff, Prod.exists] at hread
  obtain ⟨cs₁, -, name, cs₂, hname, cs₃, -, heq⟩ := hread
  cases heq
  simpa [Piece.WellRead] using isTagName_of_name? hname

theorem eq_append_of_commentBody? {cs body rest : List Char}
    (h : commentBody? cs = some (body, rest)) : cs = body ++ ['-', '-', '>'] ++ rest := by
  induction cs generalizing body with
  | nil => cases h
  | cons c cs ih =>
    rw [commentBody?] at h
    split at h
    · next rest' hafter =>
      cases h
      exact eq_append_of_after? hafter
    · obtain ⟨⟨body', rest'⟩, hbody, heq⟩ := Option.map_eq_some_iff.1 h
      cases heq
      rw [ih hbody]
      rfl

/-- A closing body is not read as that of a comment. -/
theorem conditionalEnd?_of_closing {body : List Char} (h : IsClosingBody body) (rest : List Char) :
    conditionalEnd? (['<', '!', '-', '-'] ++ body ++ ['-', '-', '>'] ++ rest) ≠ none := by
  obtain ⟨blanks, hblanks, rfl⟩ := h
  have hskip : skipBlanks (blanks ++ ']' :: '-' :: '-' :: '>' :: rest) =
      ']' :: '-' :: '-' :: '>' :: rest := by
    rw [skipBlanks, List.dropWhile_append_of_pos hblanks]
    rfl
  have hafter : afterConditionalEnd? (['<', '!', '-', '-'] ++
      (['[', 'e', 'n', 'd', 'i', 'f'] ++ blanks ++ [']']) ++ ['-', '-', '>'] ++ rest) =
        some rest := by
    simp [afterConditionalEnd?, afterOne?, after?, hskip]
  rw [conditionalEnd?, hafter]
  exact Option.some_ne_none _

theorem wellRead_of_comment? {cs rest : List Char} {p : Piece} (hend : conditionalEnd? cs = none)
    (h : comment? cs = some (p, rest)) : p.WellRead := by
  simp only [comment?, Option.bind_eq_bind, Option.bind_eq_some_iff, Prod.exists] at h
  obtain ⟨cs₁, hafter, body, cs₂, hbody, heq⟩ := h
  cases heq
  intro hclosing
  rw [String.toList_ofList] at hclosing
  refine conditionalEnd?_of_closing hclosing rest ?_
  rw [← hend, eq_append_of_after? hafter, eq_append_of_commentBody? hbody]
  simp

theorem isCondition_of_condition? {cs condition rest : List Char}
    (h : condition? cs = some (condition, rest)) : IsCondition condition := by
  simp only [condition?, Option.bind_eq_bind, Option.bind_eq_some_iff, Prod.exists] at h
  obtain ⟨cs₁, -, row, cs₂, hrow, heq⟩ := h
  cases heq
  exact ⟨row, rfl, of_row? hrow⟩

theorem wellRead_of_conditionalStart? {cs rest : List Char} {p : Piece}
    (h : conditionalStart? cs = some (p, rest)) : p.WellRead := by
  have hlt := length_lt_of_conditionalStart? h
  obtain ⟨⟨condition, rest'⟩, hread, heq⟩ := Option.map_eq_some_iff.1 h
  cases heq
  simp only [openedCondition?, Option.bind_eq_bind, Option.bind_eq_some_iff, Prod.exists] at hread
  obtain ⟨cs₁, hopen, condition, cs₂, hcondition, cs₃, -, heq⟩ := hread
  cases heq
  have hhead : cs.head? = some '<' := by
    obtain ⟨start, hstart, hafter⟩ := List.exists_of_findSome?_eq_some hopen
    rw [eq_append_of_after? hafter]
    simp only [List.mem_cons, List.not_mem_nil, or_false] at hstart
    rcases hstart with rfl | rfl <;> rfl
  obtain ⟨c, cs, rfl⟩ : ∃ c cs', cs = c :: cs' := by
    cases cs with
    | nil => cases hhead
    | cons c cs' => exact ⟨c, cs', rfl⟩
  refine ⟨_, _, rfl, ?_, by simpa using isCondition_of_condition? hcondition⟩
  obtain ⟨n, hn⟩ : ∃ n, (c :: cs).length - rest.length = n + 1 :=
    ⟨(c :: cs).length - rest.length - 1, by omega⟩
  rw [consumed, hn, List.take_succ_cons]
  simpa using hhead

theorem wellRead_of_text? {cs rest : List Char} {p : Piece} (h : text? cs = some (p, rest)) :
    p.WellRead := by
  simp only [text?, Option.orElse_eq_orElse, Option.orElse_eq_or, Option.or_eq_some_iff] at h
  rcases h with h | ⟨-, h⟩
  · obtain ⟨⟨row, rest'⟩, hrow, heq⟩ := Option.map_eq_some_iff.1 h
    cases heq
    obtain ⟨hne, hall⟩ := of_row? hrow
    refine .inr ⟨by simpa using hne, fun hmem => ?_⟩
    have := hall '<' (by simpa using hmem)
    simp at this
  · obtain ⟨rest', -, heq⟩ := Option.map_eq_some_iff.1 h
    cases heq
    exact .inl rfl

/-- What is read has its shape. -/
theorem wellRead_of_piece? {cs rest : List Char} {p : Piece} (h : piece? cs = some (p, rest)) :
    p.WellRead := by
  simp only [piece?, Option.orElse_eq_orElse, Option.orElse_eq_or, Option.or_eq_some_iff] at h
  rcases h with h | ⟨-, h | ⟨hend, h | ⟨-, h | ⟨-, h | ⟨-, h⟩⟩⟩⟩⟩
  · exact wellRead_of_conditionalStart? h
  · obtain ⟨rest', -, heq⟩ := Option.map_eq_some_iff.1 h
    cases heq
    trivial
  · exact wellRead_of_comment? hend h
  · exact wellRead_of_endTag? h
  · exact wellRead_of_startTag? h
  · exact wellRead_of_text? h

/-- **All pieces of a text have their shape.** -/
theorem wellRead_pieces (cs : List Char) : ∀ p ∈ pieces cs, p.WellRead := by
  induction hn : cs.length using Nat.strongRecOn generalizing cs with
  | _ n ih =>
    intro p hp
    cases hread : piece? cs with
    | none =>
      cases cs with
      | nil => rw [pieces_nil] at hp; cases hp
      | cons c cs =>
        have := piece?_isSome c cs
        rw [hread] at this
        cases this
    | some r =>
      obtain ⟨q, rest⟩ := r
      rw [pieces_of_piece? hread] at hp
      rcases List.mem_cons.1 hp with rfl | hmem
      · exact wellRead_of_piece? hread
      · have := length_lt_of_piece? hread
        exact ih rest.length (by omega) rest rfl p hmem

end Reader

end MarkupFilter
