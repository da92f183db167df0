import MarkupFilter.Proofs.Markup.Lowering
import MarkupFilter.Proofs.Markup.NameCase

/-!
# Pieces of a text with recased names

What a unit stands for is read off the tokens inside it. In a text with some letters of its names in
another case these are the same tokens, and only those of names have other letters: the places of a
value, say, belong to no name, since tokens stand apart.

## Main results

* `Markup.NamesRecased.text_on_eq` — a token without places of names has the same text.
* `Markup.NamesRecased.map_lower_ofText` — the pieces are the same once names are lowered.
-/

set_option autoImplicit false

namespace MarkupFilter.Markup

open Grammar

/-! ## Tokens at the same places -/

section

variable {t : IndexedText}

theorem child?_on (u : Token) (name : String) :
    (u.on t).child? name = (u.child? name).map (Token.on t) := by
  rw [Token.child?, Token.child?, Token.children_on, List.find?_map]
  congr 2
  exact funext fun c => congrArg (· == name) (Token.name_on c)

theorem childrenNamed_on (u : Token) (name : String) :
    (u.on t).childrenNamed name = (u.childrenNamed name).map (Token.on t) := by
  rw [Token.childrenNamed, Token.childrenNamed, Token.children_on, List.filter_map]
  congr 2
  exact funext fun c => congrArg (· == name) (Token.name_on c)

theorem mem_of_child? {u c : Token} {name : String} (h : u.child? name = some c) :
    c ∈ u.children ∧ c.name = name :=
  ⟨List.mem_of_find?_eq_some h, by simpa using List.find?_some h⟩

/-- Up to letter case a token has the same text. -/
theorem lower_text_on {u : Token} (h : u.window.input.Recased t) :
    AsciiCase.lower (u.on t).text = AsciiCase.lower u.text := by
  rw [AsciiCase.lower, AsciiCase.lower, Token.text, Token.text, Token.window_on,
    String.toList_ofList, String.toList_ofList, Window.text_on h]

theorem lower_childText_on {u : Token} (h : ∀ c ∈ u.children, c.window.input.Recased t)
    (name : String) :
    AsciiCase.lower ((u.on t).childText name) = AsciiCase.lower (u.childText name) := by
  rw [Token.childText, Token.childText, child?_on]
  cases hc : u.child? name with
  | none => rfl
  | some c => exact lower_text_on (h c (mem_of_child? hc).1)

end

namespace NamesRecased

variable {a b : String} {unit u : Token}

theorem wellPlaced (hunit : unit ∈ unitTokens a) : unit.WellPlaced grammar := by
  obtain ⟨m, n, hm, -, rfl⟩ := (unitRow_unitTokens a).exists_of_mem hunit
  exact wellPlaced_unit hm

theorem recased_of_within (h : NamesRecased a b) (hunit : unit ∈ unitTokens a)
    (hu : u.window.Within unit.window) : u.window.input.Recased (target b) := by
  rw [hu.input_eq, input_of_mem hunit]
  exact h.recased

/-- Of the places of a unit only those of its own names may have another letter. -/
theorem getElem?_eq (h : NamesRecased a b) (hunit : unit ∈ unitTokens a) {place : Nat}
    (hplace : unit.window.Contains place) (hname : ¬IsNamePlace unit place) :
    b.toList[place]? = a.toList[place]? := by
  refine h.eq_elsewhere place fun unit' hunit' hname' => hname ?_
  have heq := Token.WellPlaced.eq_of_pairwise (unitRow_unitTokens a).pairwise_before hunit hunit'
    hplace (hname'.contains (wellPlaced hunit'))
  rwa [heq]

/-- **A token without places of names has the same text.** -/
theorem text_on_eq (h : NamesRecased a b) (hunit : unit ∈ unitTokens a)
    (hu : u.window.Within unit.window)
    (hnames : ∀ place, u.window.Contains place → ¬IsNamePlace unit place) :
    (u.on (target b)).text = u.text := by
  have hsize := Window.size_on (h.recased_of_within hunit hu)
  rw [Token.text, Token.text, Token.window_on, Window.text_eq, Window.text_eq, hsize,
    hu.input_eq, input_of_mem hunit]
  refine congrArg String.ofList (List.ext_getElem? fun n => ?_)
  rw [List.getElem?_take, List.getElem?_take]
  split
  · next hn =>
    rw [List.getElem?_drop, List.getElem?_drop]
    have hplace : u.window.Contains (u.window.place + n) := by
      simp only [Window.size] at hn
      exact ⟨Nat.le_add_right _ _, by omega⟩
    exact h.getElem?_eq hunit (hu.contains hplace) (hnames _ hplace)
  · rfl

/-! ## Attributes -/

/-- The value of an attribute in a start tag belongs to no name. -/
theorem not_isNamePlace_value (hunit : unit ∈ unitTokens a) {tag attr value inner : Token}
    (htag : tag ∈ unit.children) (htagName : tag.name = "startTag")
    (hattribute : attr ∈ tag.children) (hattributeName : attr.name = "attribute")
    (hvalue : value ∈ attr.children) (hvalueName : value.name = "attrValue")
    (hinner : inner ∈ value.children) {place : Nat} (hplace : inner.window.Contains place) :
    ¬IsNamePlace unit place := by
  have hunitPlaced := wellPlaced hunit
  have htagPlaced := hunitPlaced.child htag
  have hattributePlaced := htagPlaced.child hattribute
  have hvaluePlaced := hattributePlaced.child hvalue
  have hinValue := (hvaluePlaced.within_of_child hinner).contains hplace
  have hinAttribute := (hattributePlaced.within_of_child hvalue).contains hinValue
  have hinTag := (htagPlaced.within_of_child hattribute).contains hinAttribute
  -- inside of a value there are no further tokens
  have hinnerNames := hvaluePlaced.name_mem hinner
  rw [hvalueName] at hinnerNames
  have hkinds : ∀ name ∈ grammar.referencesIn "attrValue", grammar.referencesIn name = [] ∧
      name ≠ "tagName" ∧ name ≠ "attrName" := by decide +kernel
  obtain ⟨hbare, hnotTag, hnotAttr⟩ := hkinds _ hinnerNames
  have hnil := (hvaluePlaced.child hinner).children_eq_nil hbare
  -- so the rows with this place lead down to it
  have hrows : ∀ row ∈ tag.rows 0, row.2.window.Contains place → ¬IsName row.2 := by
    refine htagPlaced.forall_rows (P := fun u => ¬IsName u) hattribute hinAttribute ?_
      (hattributePlaced.forall_rows (P := fun u => ¬IsName u) hvalue hinValue ?_
        (hvaluePlaced.forall_rows (P := fun u => ¬IsName u) hinner hplace ?_
          fun row hrow _ => ?_))
    · rw [IsName, htagName]
      decide
    · rw [IsName, hattributeName]
      decide
    · rw [IsName, hvalueName]
      decide
    rcases Token.mem_rows.1 hrow with rfl | ⟨c, hc, -⟩
    · exact not_or.2 ⟨hnotTag, hnotAttr⟩
    · rw [hnil] at hc
      cases hc
  rintro ⟨tag', htag', -, row, hrow, hname, hcontains⟩
  have hin' := ((hunitPlaced.child htag').within_of_row hrow).contains hcontains
  obtain rfl := hunitPlaced.eq_of_contains htag htag' hinTag hin'
  exact hrows row hrow hcontains hname

theorem lower_attributeOf (h : NamesRecased a b) (hunit : unit ∈ unitTokens a)
    {tag attr : Token} (htag : tag ∈ unit.children) (htagName : tag.name = "startTag")
    (hattribute : attr ∈ tag.children) (hattributeName : attr.name = "attribute") :
    (Piece.attributeOf (attr.on (target b))).lower =
      (Piece.attributeOf attr).lower := by
  have hunitPlaced := wellPlaced hunit
  have htagPlaced := hunitPlaced.child htag
  have hattributePlaced := htagPlaced.child hattribute
  have hwithin := (htagPlaced.within_of_child hattribute).trans (hunitPlaced.within_of_child htag)
  have hname : AsciiCase.lower ((attr.on (target b)).childText "attrName") =
      AsciiCase.lower (attr.childText "attrName") :=
    lower_childText_on (fun c hc => h.recased_of_within hunit
      ((hattributePlaced.within_of_child hc).trans hwithin)) _
  rw [Piece.attributeOf, Piece.attributeOf, child?_on]
  cases hvalue : attr.child? "attrValue" with
  | none => exact Attribute.lower_congr hname rfl rfl rfl
  | some value =>
    obtain ⟨hvalueMem, hvalueName⟩ := mem_of_child? hvalue
    simp only [Option.map_some, Option.bind_some, Token.children_on, List.head?_map]
    cases hinner : value.children.head? with
    | none => exact Attribute.lower_congr hname rfl rfl rfl
    | some inner =>
      have hinnerMem := List.mem_of_head? hinner
      have hinnerWithin := ((hattributePlaced.child hvalueMem).within_of_child hinnerMem).trans
        ((hattributePlaced.within_of_child hvalueMem).trans hwithin)
      have htext := h.text_on_eq hunit hinnerWithin fun place hplace =>
        not_isNamePlace_value hunit htag htagName hattribute hattributeName hvalueMem hvalueName
          hinnerMem hplace
      simp only [Option.map_some, htext, Token.name_on]
      exact Attribute.lower_congr hname rfl rfl rfl

/-- Attributes that are the same once lowered make the same lowered row. -/
theorem foldl_push_congr {tokens : List Token} {f g : Token → Attribute} {as bs : Attributes}
    (hstart : as.lower = bs.lower) (hfg : ∀ t ∈ tokens, (f t).lower = (g t).lower) :
    (tokens.foldl (fun as t => as.push (f t)) as).lower =
      (tokens.foldl (fun as t => as.push (g t)) bs).lower := by
  induction tokens generalizing as bs with
  | nil => exact hstart
  | cons t tokens ih =>
    rw [List.foldl_cons, List.foldl_cons]
    refine ih ?_ fun t ht => hfg t (List.mem_cons_of_mem _ ht)
    rw [Attributes.lower_push, Attributes.lower_push, hstart, hfg t List.mem_cons_self]

theorem lower_elementOf (h : NamesRecased a b) (hunit : unit ∈ unitTokens a) {tag : Token}
    (htag : tag ∈ unit.children) (htagName : tag.name = "startTag") :
    (Piece.elementOf (tag.on (target b))).lower = (Piece.elementOf tag).lower := by
  have hunitPlaced := wellPlaced hunit
  have hname : AsciiCase.lower ((tag.on (target b)).childText "tagName") =
      AsciiCase.lower (tag.childText "tagName") :=
    lower_childText_on (fun c hc => h.recased_of_within hunit
      (((hunitPlaced.child htag).within_of_child hc).trans (hunitPlaced.within_of_child htag))) _
  have hattributes : (((tag.on (target b)).childrenNamed "attribute").foldl
        (fun (as : Attributes) t => as.push (Piece.attributeOf t)) {}).lower =
      ((tag.childrenNamed "attribute").foldl
        (fun (as : Attributes) t => as.push (Piece.attributeOf t)) {}).lower := by
    rw [childrenNamed_on, List.foldl_map]
    refine foldl_push_congr rfl fun t ht => ?_
    obtain ⟨hmem, hnamed⟩ := List.mem_filter.1 ht
    exact h.lower_attributeOf hunit htag htagName hmem (beq_iff_eq.1 hnamed)
  have hself : ((tag.on (target b)).child? "selfClose").isSome =
      (tag.child? "selfClose").isSome := by
    rw [child?_on, Option.isSome_map]
  simp only [Element.lower, Piece.elementOf, hname, hattributes, hself]

/-! ## Pieces -/

/-- What is in a unit that is no tag belongs to no name. -/
theorem not_isNamePlace_of_other (hunit : unit ∈ unitTokens a) {kind : Token}
    (hkind : kind ∈ unit.children) (hname : kind.name ≠ "startTag" ∧ kind.name ≠ "endTag")
    {place : Nat} (hplace : kind.window.Contains place) : ¬IsNamePlace unit place := by
  rintro ⟨tag, htag, htagName, row, hrow, -, hcontains⟩
  have hunitPlaced := wellPlaced hunit
  have hin := ((hunitPlaced.child htag).within_of_row hrow).contains hcontains
  obtain rfl := hunitPlaced.eq_of_contains hkind htag hplace hin
  exact htagName.elim hname.1 hname.2

theorem childText_on_eq {v : Token} {t : IndexedText} (name : String)
    (h : ∀ c ∈ v.children, (c.on t).text = c.text) :
    (v.on t).childText name = v.childText name := by
  rw [Token.childText, Token.childText, child?_on]
  cases hc : v.child? name with
  | none => rfl
  | some c => exact h c (mem_of_child? hc).1

/-- A unit of the recased text stands for the same piece, up to the letter case of names. -/
theorem lower_ofToken (h : NamesRecased a b) (hunit : unit ∈ unitTokens a) :
    (Piece.ofToken (unit.on (target b))).lower = (Piece.ofToken unit).lower := by
  have hunitPlaced := wellPlaced hunit
  have hself : unit.window.Within unit.window := ⟨rfl, Nat.le_refl _, Nat.le_refl _⟩
  rw [Piece.ofToken, Piece.ofToken, Token.children_on, List.head?_map]
  cases hkind : unit.children.head? with
  | none =>
    have hnil : unit.children = [] := List.head?_eq_none_iff.1 hkind
    have htext := h.text_on_eq hunit hself fun place _ hplace => by
      obtain ⟨tag, htag, -⟩ := hplace
      rw [hnil] at htag
      cases htag
    simp only [Option.map_none, htext]
  | some kind =>
    have hmem := List.mem_of_head? hkind
    have hwithin := hunitPlaced.within_of_child hmem
    simp only [Option.map_some, Token.name_on]
    by_cases hstart : kind.name = "startTag"
    · simp only [hstart, String.reduceEq, if_false, if_true, Piece.lower,
        h.lower_elementOf hunit hmem hstart]
    by_cases hend : kind.name = "endTag"
    · have hname := lower_childText_on (fun c hc => h.recased_of_within hunit
        (((hunitPlaced.child hmem).within_of_child hc).trans hwithin)) "tagName"
      have hraw := lower_text_on (h.recased_of_within hunit hwithin)
      simp only [hend, String.reduceEq, if_false, if_true, Piece.lower, hname, hraw]
    -- the rest is written as it stands
    have hnames : ∀ place, kind.window.Contains place → ¬IsNamePlace unit place :=
      fun place => not_isNamePlace_of_other hunit hmem ⟨hstart, hend⟩
    have htext := h.text_on_eq hunit hwithin hnames
    have hchild : ∀ name, (kind.on (target b)).childText name = kind.childText name :=
      fun name => childText_on_eq name fun c hc => by
        have hin := (hunitPlaced.child hmem).within_of_child hc
        exact h.text_on_eq hunit (hin.trans hwithin) fun place hplace =>
          hnames place (hin.contains hplace)
    simp only [htext, hchild, hstart, if_false]

/-- **The pieces of a text with recased names** are those of the text, up to the letter case of
names. -/
theorem map_lower_ofText (h : NamesRecased a b) :
    (Piece.ofText b).map Piece.lower = (Piece.ofText a).map Piece.lower := by
  rw [Piece.ofText, Piece.ofText, h.unitTokens_eq, List.map_map, List.map_map, List.map_map]
  exact List.map_congr_left fun unit hunit => h.lower_ofToken hunit

end NamesRecased

end MarkupFilter.Markup
