import MarkupFilter.Grammar.Basic
import MarkupFilter.Proofs.RuleText.LexemePlaces

/-!
# Where errors of a grammar's text point

A reader of definitions blames a lexeme it was given, an open group among them, or the end of the
text. Lexemes stand at their places, so an error points at what it blames. The exception is a code
point within a set of characters, which is blamed at its digits instead of its sign.

## Main definitions

* `RuleText.Blames` — what an error blames is among the lexemes.
* `RuleText.KeepsTo` — a reader blames the lexemes it was given, and leaves no others.

## Main results

* `RuleText.keepsTo_primary`, …, `RuleText.keepsTo_alternatives` — all readers do.
* `Grammar.compile_error_pointsAt` — the error of a text points at what is at fault.
-/

set_option autoImplicit false

namespace MarkupFilter

namespace RuleText

open Grammar

/-- What the error blames is one of the lexemes `ls`, or the end of the text at `stop`. -/
inductive Blames (stop : Nat) (ls : List Located) : GrammarError → Prop
  | lexeme {l : Located} (h : l ∈ ls) :
      Blames stop ls (.unexpectedToken (.lexeme l.lexeme) l.offset)
  | endOfInput : Blames stop ls (.unexpectedToken .endOfInput stop)
  | group {offset : Nat} (h : ⟨.openGroup, offset⟩ ∈ ls) :
      Blames stop ls (.unterminatedGroup offset)
  | nothing {e : GrammarError} (h : e.offset? = none) : Blames stop ls e

/-- The outcome of a reader on `ls`: it blames one of them, or leaves some of them. -/
def KeepsTo {α : Type} (stop : Nat) (ls : List Located) :
    Except GrammarError (Parsed α ls) → Prop
  | .error e => Blames stop ls e
  | .ok parsed => parsed.rest ⊆ ls

section

variable {α : Type} {stop : Nat} {ls more : List Located} {e : GrammarError}

theorem Blames.mono (h : Blames stop ls e) (hls : ls ⊆ more) : Blames stop more e := by
  cases h with
  | lexeme h => exact .lexeme (hls h)
  | endOfInput => exact .endOfInput
  | group h => exact .group (hls h)
  | nothing h => exact .nothing h

theorem blames_unexpected (hls : ls ⊆ more) : Blames stop more (unexpected stop ls) := by
  cases ls with
  | nil => exact .endOfInput
  | cons l rest => exact .lexeme (hls List.mem_cons_self)

theorem KeepsTo.blames {outcome : Except GrammarError (Parsed α ls)} (h : KeepsTo stop ls outcome)
    (he : outcome = .error e) : Blames stop ls e := by
  rwa [he] at h

theorem KeepsTo.subset {outcome : Except GrammarError (Parsed α ls)} {parsed : Parsed α ls}
    (h : KeepsTo stop ls outcome) (hparsed : outcome = .ok parsed) : parsed.rest ⊆ ls := by
  rwa [hparsed] at h

/-- What is left after a lexeme that a reader leaves. -/
theorem KeepsTo.subset_tail {outcome : Except GrammarError (Parsed α ls)} {parsed : Parsed α ls}
    {l : Located} {after : List Located} (h : KeepsTo stop ls outcome)
    (hparsed : outcome = .ok parsed) (hrest : parsed.rest = l :: after) : after ⊆ ls :=
  List.Subset.trans (List.subset_cons_self l after) (hrest ▸ h.subset hparsed)

end

/-! ## Readers -/

mutual

theorem keepsTo_primary (stop : Nat) (ls : List Located) : KeepsTo stop ls (primary stop ls) := by
  unfold primary
  split
  · exact .endOfInput
  · next offset rest =>
    have hinner := keepsTo_alternatives stop rest
    have hrest : rest ⊆ ⟨.openGroup, offset⟩ :: rest := List.subset_cons_self _ _
    split
    · next he => exact (hinner.blames he).mono hrest
    · next inner hok =>
      split
      · next hclose => exact List.Subset.trans (hinner.subset_tail hok hclose) hrest
      · exact .group List.mem_cons_self
  iterate 4 exact List.subset_cons_self _ _
  exact blames_unexpected (List.Subset.refl _)
termination_by (ls.length, 0)

theorem keepsTo_quantified (stop : Nat) (ls : List Located) :
    KeepsTo stop ls (quantified stop ls) := by
  have hitem := keepsTo_primary stop ls
  unfold quantified
  split
  · next he => exact hitem.blames he
  next item hok =>
  split
  · next hrest =>
    split
    · exact hitem.subset hok
    · split
      · exact blames_unexpected (hitem.subset_tail hok hrest)
      · exact hitem.subset_tail hok hrest
  · exact hitem.subset hok
termination_by (ls.length, 1)

theorem keepsTo_difference (stop : Nat) (ls : List Located) :
    KeepsTo stop ls (difference stop ls) := by
  have hleft := keepsTo_quantified stop ls
  unfold difference
  split
  · next he => exact hleft.blames he
  next left hok =>
  split
  · next after hrest =>
    have hafter := hleft.subset_tail hok hrest
    split
    · have : after.length < ls.length := by
        have := left.shorter
        simp only [hrest, List.length_cons] at this
        omega
      have hright := keepsTo_quantified stop after
      split
      · next he => exact (hright.blames he).mono hafter
      · next right hok => exact List.Subset.trans (hright.subset hok) hafter
    · exact blames_unexpected hafter
  · exact hleft.subset hok
termination_by (ls.length, 2)

theorem keepsTo_items (stop : Nat) (ls : List Located) : KeepsTo stop ls (items stop ls) := by
  have hfirst := keepsTo_difference stop ls
  unfold items
  split
  · next he => exact hfirst.blames he
  next first hok =>
  split
  · have := first.shorter
    have hmore := keepsTo_items stop first.rest
    split
    · next he => exact (hmore.blames he).mono (hfirst.subset hok)
    · next more hrest => exact List.Subset.trans (hmore.subset hrest) (hfirst.subset hok)
  · exact hfirst.subset hok
termination_by (ls.length, 3)

theorem keepsTo_alternatives (stop : Nat) (ls : List Located) :
    KeepsTo stop ls (alternatives stop ls) := by
  have hfirst := keepsTo_items stop ls
  unfold alternatives
  split
  · split
    · next he => exact hfirst.blames he
    next first hok =>
    have hrest : first.rest ⊆ ls := hfirst.subset hok
    split
    · next after hbar =>
      have hafter := hfirst.subset_tail hok hbar
      have : after.length < ls.length := by
        have := first.shorter
        simp only [hbar, List.length_cons] at this
        omega
      have hmore := keepsTo_alternatives stop after
      split
      · next he => exact (hmore.blames he).mono hafter
      · next more hok => exact List.Subset.trans (hmore.subset hok) hafter
    · exact hrest
  · exact blames_unexpected (List.Subset.refl _)
termination_by (ls.length, 4)

end

theorem blames_of_definitionsFrom {stop : Nat} {ls : List Located} {e : GrammarError}
    (h : definitionsFrom stop ls = .error e) : Blames stop ls e := by
  fun_induction definitionsFrom stop ls with
  | case1 => cases h
  | case2 name offset sign body e' hrule =>
    -- an expression cannot be read
    cases h
    exact ((keepsTo_alternatives stop body).blames hrule).mono fun _ hl => .tail _ (.tail _ hl)
  | case3 name offset sign body rule hrule e' hmore ih =>
    -- a later definition cannot be read
    cases h
    have hrest := (keepsTo_alternatives stop body).subset hrule
    exact (ih hmore).mono fun _ hl => .tail _ (.tail _ (hrest hl))
  | case4 => cases h
  | case5 =>
    cases h
    exact .nothing rfl
  | case6 =>
    cases h
    exact blames_unexpected (List.Subset.refl _)

theorem blames_of_definitions {stop : Nat} {ls : List Located} {e : GrammarError}
    (h : definitions stop ls = .error e) : Blames stop ls e := by
  unfold definitions at h
  split at h
  · cases h
    exact .nothing rfl
  · exact blames_of_definitionsFrom h

/-- What stands at its place in a text is pointed at by an error that blames it. -/
theorem Blames.locatedIn {cs : List Char} {ls : List Located} {e : GrammarError}
    (h : Blames (Utf8.size cs) ls e) (hls : ∀ l ∈ ls, l.StandsIn 0 cs)
    (hoffset : e.offset? ≠ none) : e.LocatedIn 0 cs := by
  cases h with
  | lexeme hl =>
    obtain ⟨before, after, hcs, hoffset, hstands⟩ := hls _ hl
    exact ⟨before, after, hcs, congrArg some hoffset, hstands⟩
  | endOfInput => exact ⟨cs, [], (List.append_nil cs).symm, by simp [GrammarError.offset?], rfl⟩
  | group hl =>
    obtain ⟨before, after, hcs, hoffset, beginning, hbeginning, -, hafter⟩ := hls _ hl
    rw [List.mem_singleton.1 hbeginning] at hafter
    exact ⟨before, after, hcs, congrArg some hoffset, hafter⟩
  | nothing hnone => exact absurd hnone hoffset

end RuleText

/-! ## Texts -/

/-- There is one way to split a text at a place. -/
theorem Utf8.eq_of_append_eq {as bs cs ds : List Char} (h : as ++ bs = cs ++ ds)
    (hsize : size as = size cs) : bs = ds := by
  induction as generalizing cs with
  | nil =>
    cases cs with
    | nil => exact h
    | cons c cs =>
      have := c.utf8Size_pos
      simp only [size_nil, size_cons] at hsize
      omega
  | cons a as ih =>
    cases cs with
    | nil =>
      have := a.utf8Size_pos
      simp only [size_nil, size_cons] at hsize
      omega
    | cons c cs =>
      obtain ⟨rfl, htail⟩ := List.cons.inj h
      exact ih htail (Nat.add_left_cancel hsize)

namespace Grammar

open RuleText

/-- What is wrong with the definitions as a whole has no place. -/
theorem offset?_of_ofDefinitions {definitions : List (String × Rule)} {e : GrammarError}
    (h : ofDefinitions definitions = .error e) : e.offset? = none := by
  unfold ofDefinitions at h
  split at h
  · cases h
    rfl
  dsimp only at h
  split at h
  · cases h
    rfl
  split at h <;> cases h
  rfl

/-- **An error that reports a place points at what it blames there.** The place is the number of
bytes before it, so it is the boundary of a character. -/
theorem compile_error_pointsAt {text : String} {e : GrammarError} {offset : Nat}
    (h : compile text = .error e) (hoffset : e.offset? = some offset) :
    ∃ before after, text.toList = before ++ after ∧ Utf8.size before = offset ∧
      e.PointsAt before after := by
  have hlocated : e.LocatedIn 0 text.toList := by
    have hlexes := lexesIn_lexemes text.toList
    unfold compile at h
    dsimp only at h
    split at h
    · next hlexemes =>
      cases h
      rw [hlexemes] at hlexes
      exact hlexes
    next ls hlexemes =>
    rw [hlexemes] at hlexes
    split at h
    · next hdefinitions =>
      cases h
      exact (blames_of_definitions hdefinitions).locatedIn hlexes (by simp [hoffset])
    · rw [offset?_of_ofDefinitions h] at hoffset
      cases hoffset
  obtain ⟨before, after, htext, hplace, hpoints⟩ := hlocated
  rw [hoffset, Nat.zero_add] at hplace
  exact ⟨before, after, htext, (Option.some.inj hplace).symm, hpoints⟩

/-- A character that begins no lexeme is blamed at its byte, one more than there are characters
before it. -/
theorem compile_error_pointsAt_operator :
    compile "a ::= 'é' & 'y'" = .error (.unknownOperator '&' 11) ∧
      ∃ before after, "a ::= 'é' & 'y'".toList = before ++ after ∧ Utf8.size before = 11 ∧
        (GrammarError.unknownOperator '&' 11).PointsAt before after :=
  have h : compile "a ::= 'é' & 'y'" = .error (.unknownOperator '&' 11) := rfl
  ⟨h, compile_error_pointsAt h rfl⟩

/-- The sign of a faulty code point is blamed outside of a set of characters, but not inside. -/
theorem compile_error_behind_sign :
    compile "a ::= #xD800" = .error (.invalidCharCode 6) ∧
      compile "a ::= [#xD800]" = .error (.invalidCharCode 9) ∧
      ∀ before after, "a ::= [#xD800]".toList = before ++ after → Utf8.size before = 9 →
        ¬ ['#', 'x'] <+: after := by
  refine ⟨rfl, rfl, fun before after htext hsize => ?_⟩
  have hsplit : "a ::= [#x".toList ++ "D800]".toList = before ++ after := htext
  have hafter : "D800]".toList = after := Utf8.eq_of_append_eq hsplit hsize.symm
  rw [← hafter]
  decide

end Grammar

end MarkupFilter
