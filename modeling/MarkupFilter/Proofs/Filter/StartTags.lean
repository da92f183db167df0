import MarkupFilter.Proofs.Filter.Passing

/-!
# Start tags that are written again

A start tag that is read and then written as it was decoded is one start tag again, and no more than
that. It is the tag of the same element, with the angle brackets in its values escaped, unless it
ends in a value without quotes and a slash: the slash is written right after the value then, and
becomes a part of it.

## Main definitions

* `Element.escaped` — the element with the angle brackets in its values escaped.

## Main results

* `Markup.exists_unit_write` — the text of a start tag is one unit.
* `Filter.startTag_reread` — a start tag is read again as the same element, unless it ends bare.
* `Filter.startTag_not_reread` — not so if it does.
-/

set_option autoImplicit false

namespace MarkupFilter

open Grammar Reader

/-! ## Escaped elements -/

/-- The attribute with the angle brackets in its value escaped. -/
def Attribute.escaped (a : Attribute) : Attribute :=
  { a with value := a.value.map CharacterReference.escapeAngles }

/-- The element with the angle brackets in the values of its attributes escaped. -/
def Element.escaped (e : Element) : Element :=
  e.mapAttributes (·.map Attribute.escaped)

/-- Nothing but angle brackets is escaped in an attribute as it was written. -/
theorem Attribute.WellRead.asWritten_eq {a : Attribute} (ha : a.WellRead) :
    a.asWritten = a.escaped := by
  have hvalue := ha.toShaped.value_asWritten
  obtain ⟨name, value, quote, enabled, key, hkey⟩ := a
  obtain rfl : enabled = true := ha.enabled
  subst hkey
  rw [Attribute.escaped, ← hvalue]
  rfl

theorem Element.WellRead.asWritten_eq {e : Element} (he : e.WellRead) : e.asWritten = e.escaped := by
  have henabled : e.attributes.enabled = e.attributes.toList :=
    List.filter_eq_self.2 fun a ha => (he.attributes a ha).enabled
  have hattributes : e.attributes.toList.map Attribute.asWritten =
      e.attributes.toList.map Attribute.escaped :=
    List.map_congr_left fun a ha => (he.attributes a ha).asWritten_eq
  obtain ⟨name, condition, attributes, enabled, ending, selfClosed⟩ := e
  obtain rfl : condition = none := he.condition
  obtain rfl : enabled = true := he.enabled
  obtain rfl : ending = .missing := he.ending
  rw [Element.asWritten, henabled, hattributes]
  rfl

/-- Whether a start tag ends in a value without quotes does not depend on escapes. -/
theorem Element.endsBare_escaped (e : Element) : e.escaped.endsBare = e.endsBare := by
  have hlast : e.escaped.attributes.toList.getLast? =
      e.attributes.toList.getLast?.map Attribute.escaped := List.getLast?_map
  rw [Element.endsBare, hlast, Option.any_map]
  refine congrArg (e.selfClosed && ·) (congrArg (Option.any · _) (funext fun a => ?_))
  show ((a.value.map CharacterReference.escapeAngles).isSome && a.quote.isNone) = _
  rw [Option.isSome_map]

/-- What can be written with its slash does not end in a value without quotes. -/
theorem Element.WellWritten.endsBare {e : Element} (he : e.WellWritten) : e.endsBare = false := by
  rw [Element.endsBare, Bool.and_eq_false_imp]
  intro hself
  cases hlast : e.attributes.toList.getLast? with
  | none => rfl
  | some a =>
    rw [Option.any_some, Bool.and_eq_false_iff]
    rcases he.slash hself a hlast with hvalue | hquote
    · exact .inl (by rw [hvalue]; rfl)
    · exact .inr (by rwa [Option.isNone_eq_false_iff, Option.isSome_iff_ne_none])

/-! ## One unit -/

namespace Markup

/-- Only a unit of the kind `startTag` stands for a start tag. -/
theorem name_eq_of_ofToken {unit child : Token} (hchildren : unit.children = [child])
    (hkind : child.name ∈ unitKinds) {e : Element} (h : Piece.ofToken unit = .startTag e) :
    child.name = "startTag" := by
  by_contra hne
  rw [Piece.ofToken, hchildren, List.head?_cons] at h
  simp only [unitKinds, List.mem_cons, List.not_mem_nil, or_false] at hkind
  rcases hkind with heq | heq | heq | heq | heq | heq <;> simp [heq] at h hne

/-- **The text of a start tag is one unit**: one token of the kind `startTag` over all of its
characters, which stands for the element. -/
theorem exists_unit_write {x : Element} (hx : x.WellWritten) {text : String}
    (htext : text.toList = x.write) :
    ∃ unit tag, unitTokens text = [unit] ∧ unit.children = [tag] ∧ tag.name = "startTag" ∧
      tag.text = text ∧ Piece.ofToken unit = .startTag x := by
  have hread := (piece?_startTag hx []).1
  rw [List.append_nil, ← htext] at hread
  have hpieces : (unitTokens text).map Piece.ofToken = [.startTag x] := by
    have hall := Piece.ofText_eq_pieces text
    rwa [pieces_of_piece? hread, pieces_nil] at hall
  obtain ⟨unit, hunit, hpiece⟩ := List.map_eq_singleton_iff.1 hpieces
  have hrow := unitRow_unitTokens text
  obtain ⟨tag, hchildren, hwindow, hkind⟩ := hrow.exists_child unit (by rw [hunit]; simp)
  refine ⟨unit, tag, hunit, hchildren, name_eq_of_ofToken hchildren hkind hpiece, ?_, hpiece⟩
  -- the row ends where the text does, so its one unit takes all of it
  rw [hunit] at hrow
  cases hrow with
  | @cons w m tokens hm hpos hle h =>
    cases h with
    | nil hsize =>
      have hwhole : m.length = (Window.whole text.toList).text.length := by
        rw [Window.length_text]
        rw [Window.size_drop] at hsize
        omega
      rw [Token.text, hwindow, Match.toToken, Window.text_upTo, Nat.add_sub_cancel_left, hwhole,
        List.take_length, text_whole, String.ofList_toList]

end Markup

/-! ## Start tags of a text -/

namespace Filter

/-- **A start tag that is written again is one start tag**, over all of its text. It is read as the
same element, with the same name, attributes and slash, up to angle brackets that are escaped in
values, exactly if the slash does not follow a value without quotes. -/
theorem startTag_reread (f : Filter) {input : String} {e : Element}
    (he : .startTag e ∈ Piece.ofText input) :
    ∃ unit tag, Markup.unitTokens (f.renderStartTag e .allowed) = [unit] ∧
      unit.children = [tag] ∧ tag.name = "startTag" ∧
      tag.text = f.renderStartTag e .allowed ∧
      (Piece.ofToken unit = .startTag e.escaped ↔ e.endsBare = false) := by
  have hread : e.WellRead := by
    rw [Piece.ofText_eq_pieces] at he
    exact wellRead_pieces _ _ he
  have hescaped : e.escaped.WellRead := hread.asWritten_eq ▸ hread.shaped.asWritten
  have htext : (f.renderStartTag e .allowed).toList = e.escaped.write := by
    rw [renderStartTag_of_enabled hread.condition fun a ha => (hread.attributes a ha).enabled,
      toList_renderLiveStartTag, hread.asWritten_eq]
  by_cases hbare : e.endsBare = false
  · have hwritten : e.escaped.WellWritten :=
      hescaped.wellWritten (e.endsBare_escaped.trans hbare)
    obtain ⟨unit, tag, hunit, hchildren, hname, hall, hpiece⟩ :=
      Markup.exists_unit_write hwritten htext
    exact ⟨unit, tag, hunit, hchildren, hname, hall, iff_of_true hpiece hbare⟩
  · obtain ⟨x, hx, hwrite, -⟩ := hescaped.exists_wellWritten
    obtain ⟨unit, tag, hunit, hchildren, hname, hall, hpiece⟩ :=
      Markup.exists_unit_write hx (htext.trans hwrite.symm)
    refine ⟨unit, tag, hunit, hchildren, hname, hall, iff_of_false (fun hsame => hbare ?_) hbare⟩
    -- what is read can be written with its slash, which the element cannot
    obtain rfl : x = e.escaped := Piece.startTag.inj (hpiece.symm.trans hsame)
    rw [← e.endsBare_escaped]
    exact hx.endsBare

/-- A start tag with values in quotes, without quotes and without value, and a slash. -/
theorem startTag_reread_image :
    ∃ e, .startTag e ∈ Piece.ofText "text<img Alt='a > \"b\"' src=a&lt;/ ismap\n/>" ∧
      e.endsBare = false ∧
      ∀ f : Filter, f.renderStartTag e .allowed =
          "<img Alt='a &gt; \"b\"' src=a&lt;/ ismap/>" ∧
        ∃ unit tag, Markup.unitTokens (f.renderStartTag e .allowed) = [unit] ∧
          unit.children = [tag] ∧ tag.name = "startTag" ∧
          tag.text = f.renderStartTag e .allowed ∧ Piece.ofToken unit = .startTag e.escaped := by
  have hmem : .startTag { name := "img", selfClosed := true, attributes := ⟨[
      { name := "Alt", value := some "a > \"b\"", quote := some '\'' },
      { name := "src", value := some "a&lt;/" }, { name := "ismap" }]⟩ } ∈
      Piece.ofText "text<img Alt='a > \"b\"' src=a&lt;/ ismap\n/>" := by decide +kernel
  refine ⟨_, hmem, by decide, fun f => ⟨rfl, ?_⟩⟩
  obtain ⟨unit, tag, hunit, hchildren, hname, hall, hpiece⟩ := f.startTag_reread hmem
  exact ⟨unit, tag, hunit, hchildren, hname, hall, hpiece.2 (by decide)⟩

/-- The slash after a value without quotes is read as a part of it: not every start tag is read
again as the same element. -/
theorem startTag_not_reread :
    ∃ e, .startTag e ∈ Piece.ofText "<b title=x />" ∧
      ∀ f : Filter, f.renderStartTag e .allowed = "<b title=x/>" ∧
        Piece.ofText (f.renderStartTag e .allowed) = [.startTag { name := "b", attributes :=
          ⟨[{ name := "title", value := some "x/" }]⟩ }] ∧
        e.selfClosed = true ∧ .startTag e.escaped ∉ Piece.ofText (f.renderStartTag e .allowed) := by
  have hread : Piece.ofText "<b title=x/>" = [.startTag { name := "b", attributes :=
      ⟨[{ name := "title", value := some "x/" }]⟩ }] := by decide +kernel
  refine ⟨{ name := "b", selfClosed := true, attributes :=
    ⟨[{ name := "title", value := some "x" }]⟩ }, by decide +kernel, fun f => ?_⟩
  have htext : f.renderStartTag { name := "b", selfClosed := true, attributes :=
    ⟨[{ name := "title", value := some "x" }]⟩ } .allowed = "<b title=x/>" := rfl
  rw [htext, hread]
  exact ⟨rfl, rfl, rfl, by decide⟩

end Filter

end MarkupFilter
