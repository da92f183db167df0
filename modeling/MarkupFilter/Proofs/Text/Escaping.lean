import MarkupFilter.Proofs.Text.References

/-!
# Escaped text

A text is escaped so that it can stand in markup: nothing in it opens or closes a tag or a value,
and reading it gives the text back. Reading knows more references than escaping writes, so it is
not enough that the five written ones are read; a text that looks like a reference, or like the end
of one, must not be taken for a part of those around it. It is not, since the `&` of such a text is
itself escaped.

## Main definitions

* `CharacterReference.markupCharacters` — the characters that are written as references.

## Main results

* `CharacterReference.unescape_escape` — reading undoes escaping, reference by reference.
-/

set_option autoImplicit false

namespace MarkupFilter.CharacterReference

/-- The characters that mean something in markup. -/
def markupCharacters : List Char :=
  ['&', '<', '>', '"', '\'']

/-- A character that means nothing in markup is written as it is. The others are written as
references, which are read as such whatever follows, and in which no such character stands but the
`&` they start with. -/
theorem escapeChar_cases (c : Char) :
    (c ∉ markupCharacters ∧ escapeChar c = [c]) ∨
      ∃ row, escapeChar c = '&' :: row ∧ (∀ d ∈ row, d ∉ markupCharacters) ∧
        ∀ rest, reference? (row ++ rest) = some (c, row.length) := by
  by_cases hc : c ∈ markupCharacters
  · right
    simp only [markupCharacters, List.mem_cons, List.not_mem_nil, or_false] at hc
    rcases hc with rfl | rfl | rfl | rfl | rfl <;>
      exact ⟨_, rfl, by decide, fun _ => rfl⟩
  · refine .inl ⟨hc, ?_⟩
    simp only [markupCharacters, List.mem_cons, List.not_mem_nil, or_false, not_or] at hc
    obtain ⟨hamp, hleft, hright, hdouble, hsingle⟩ := hc
    unfold escapeChar
    split <;> first | contradiction | rfl

/-- An escaped text has no character that means something in markup, but for `&`. -/
theorem eq_amp_of_mem_escaped {cs : List Char} {d : Char} (hd : d ∈ cs.flatMap escapeChar)
    (hmarkup : d ∈ markupCharacters) : d = '&' := by
  obtain ⟨c, -, hdc⟩ := List.mem_flatMap.1 hd
  rcases escapeChar_cases c with ⟨hc, hself⟩ | ⟨row, hrow, hplain, -⟩
  · rw [hself, List.mem_singleton] at hdc
    exact absurd (hdc ▸ hmarkup) hc
  · rw [hrow, List.mem_cons] at hdc
    exact hdc.resolve_right fun hmem => hplain d hmem hmarkup

/-- **Reading undoes escaping.** The induction is on the text: each character is either read as it
stands, or it is the whole reference that stands for it. -/
theorem decodeFrom_escaped (cs : List Char) : decodeFrom 0 (cs.flatMap escapeChar) = cs := by
  induction cs with
  | nil => rfl
  | cons c cs ih =>
    rw [List.flatMap_cons]
    rcases escapeChar_cases c with ⟨hc, hself⟩ | ⟨row, hrow, -, hread⟩
    · have hamp : c ≠ '&' := fun heq => hc (heq ▸ List.mem_cons_self ..)
      rw [hself, List.singleton_append, decodeFrom, if_neg hamp, ih]
    · rw [hrow, List.cons_append, decodeFrom, if_pos rfl, hread]
      dsimp only
      rw [decodeFrom_eq_drop, List.drop_left, ih]

/-- Where a `&` stands in an escaped text, a reference to one of its characters starts; what is
before it and what is after the reference are the escaped texts before and after the character. -/
theorem exists_reference_of_escaped {cs before after : List Char}
    (h : cs.flatMap escapeChar = before ++ '&' :: after) :
    ∃ front c back row, cs = front ++ c :: back ∧ before = front.flatMap escapeChar ∧
      after = row ++ back.flatMap escapeChar ∧ reference? after = some (c, row.length) := by
  induction cs generalizing before with
  | nil => simp at h
  | cons c cs ih =>
    rw [List.flatMap_cons] at h
    -- either the reference stands for this character, or for one behind it
    have hbehind : ∀ rest, before = escapeChar c ++ rest →
        cs.flatMap escapeChar = rest ++ '&' :: after →
        ∃ front d back row, c :: cs = front ++ d :: back ∧ before = front.flatMap escapeChar ∧
          after = row ++ back.flatMap escapeChar ∧ reference? after = some (d, row.length) := by
      rintro rest rfl hrest
      obtain ⟨front, d, back, row, rfl, rfl, hafter, hread⟩ := ih hrest
      exact ⟨c :: front, d, back, row, rfl, rfl, hafter, hread⟩
    rcases escapeChar_cases c with ⟨hc, hself⟩ | ⟨row, hrow, hplain, hread⟩
    · rw [hself, List.singleton_append] at h
      rcases List.cons_eq_append_iff.1 h with ⟨-, heq⟩ | ⟨rest, rfl, hrest⟩
      · cases heq
        exact absurd (List.mem_cons_self ..) hc
      · exact hbehind rest (by rw [hself]; rfl) hrest
    · rw [hrow, List.cons_append] at h
      rcases List.cons_eq_append_iff.1 h with ⟨rfl, heq⟩ | ⟨rest, rfl, hrest⟩
      · cases heq
        exact ⟨[], c, cs, row, rfl, rfl, rfl, hread _⟩
      · rcases List.append_eq_append_iff.1 hrest with ⟨more, rfl, hmore⟩ | ⟨more, rfl, hmore⟩
        · exact hbehind more (by rw [hrow]; rfl) hmore
        · cases more with
          | nil => exact hbehind [] (by rw [hrow]; simp) hmore.symm
          | cons d more =>
            -- there is no second `&` in a reference
            cases hmore
            exact absurd (List.mem_cons_self ..) (hplain '&' (by simp))

/-- **Reading undoes escaping.** An escaped text is read as the text itself, and it has no angle
bracket and no quote. Each `&` in it starts a reference to a single character of the text: what
stands before the `&` is the escaped text before that character, and what stands after the reference
is the escaped text after it. -/
theorem unescape_escape (s : String) :
    unescape (escape s) = s ∧
      (∀ c ∈ ['<', '>', '"', '\''], c ∉ (escape s).toList) ∧
      ∀ before after, (escape s).toList = before ++ '&' :: after →
        ∃ front c back length, s.toList = front ++ c :: back ∧
          reference? after = some (c, length) ∧
          String.ofList before = escape (String.ofList front) ∧
          String.ofList (after.drop length) = escape (String.ofList back) := by
  refine ⟨?_, fun c hc hmem => ?_, fun before after h => ?_⟩
  · rw [unescape, escape, String.toList_ofList, decodeFrom_escaped, String.ofList_toList]
  · rw [escape, String.toList_ofList] at hmem
    have hamp := eq_amp_of_mem_escaped hmem (List.mem_cons_of_mem _ hc)
    subst hamp
    exact absurd hc (by decide)
  · rw [escape, String.toList_ofList] at h
    obtain ⟨front, c, back, row, hs, rfl, rfl, hread⟩ := exists_reference_of_escaped h
    refine ⟨front, c, back, row.length, hs, hread, ?_, ?_⟩
    · rw [escape, String.toList_ofList]
    · rw [escape, String.toList_ofList, List.drop_left]

/-- What looks like references, or like a part of them, comes back as it was. -/
theorem unescape_escape_lookalike :
    let escaped := escape "&#60;<&lt"
    escaped = "&amp;#60;&lt;&amp;lt" ∧ unescape escaped = "&#60;<&lt" ∧ '<' ∉ escaped.toList ∧
      escaped.toList = "&amp;#60;".toList ++ '&' :: "lt;&amp;lt".toList ∧
      ∃ front c back length, "&#60;<&lt".toList = front ++ c :: back ∧
        reference? "lt;&amp;lt".toList = some (c, length) ∧
        "&amp;#60;" = escape (String.ofList front) ∧
        String.ofList ("lt;&amp;lt".toList.drop length) = escape (String.ofList back) := by
  intro escaped
  obtain ⟨hread, hplain, hreference⟩ := unescape_escape "&#60;<&lt"
  have hsplit : escaped.toList = "&amp;#60;".toList ++ '&' :: "lt;&amp;lt".toList := by
    decide +kernel
  exact ⟨by decide +kernel, hread, hplain '<' (by decide), hsplit, hreference _ _ hsplit⟩

end MarkupFilter.CharacterReference
