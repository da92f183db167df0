import MarkupFilter.Policy.Basic

/-!
# Tables of rules

A property of all rules of a table is one of every rule that is found in it.

## Main definitions

* `RuleTable.Every` — all rules of a table have a property.
* `RuleTable.Named` — every rule of a table stands under its own name.

## Main results

* `RuleTable.Every.of_find?` — a rule that is found has the property.
* `RuleTable.Named.of_find?` — a rule is found by its own name.
* `RuleTable.Named.add` — a rule that is added, and perhaps merged.
-/

set_option autoImplicit false

namespace MarkupFilter

namespace RuleTable

variable {ρ : Type} {t : RuleTable ρ} {Q : ρ → Prop}

/-- All rules of the table have the property. -/
def Every (t : RuleTable ρ) (Q : ρ → Prop) : Prop :=
  ∀ entry ∈ t.entries, Q entry.2

theorem Every.of_find? (h : t.Every Q) {name : String} {rule : ρ} (hrule : t.find? name = some rule) :
    Q rule := by
  unfold find? at hrule
  obtain ⟨before, after, hentries, -⟩ := List.lookup_eq_some_iff.1 hrule
  refine h (AsciiCase.lower name, rule) ?_
  rw [hentries]
  exact List.mem_append_right _ (List.mem_cons_self ..)

/-! ## Names -/

variable {name : ρ → String}

/-- Every rule of the table stands under its own name, in small letters. -/
def Named (t : RuleTable ρ) (name : ρ → String) : Prop :=
  ∀ entry ∈ t.entries, entry.1 = AsciiCase.lower (name entry.2)

theorem Named.of_find? (h : t.Named name) {asked : String} {rule : ρ}
    (hrule : t.find? asked = some rule) : AsciiCase.lower (name rule) = AsciiCase.lower asked := by
  unfold find? at hrule
  obtain ⟨before, after, hentries, -⟩ := List.lookup_eq_some_iff.1 hrule
  refine (h (AsciiCase.lower asked, rule) ?_).symm
  rw [hentries]
  exact List.mem_append_right _ (List.mem_cons_self ..)

theorem Named.put (h : t.Named name) {asked : String} {rule : ρ}
    (hrule : AsciiCase.lower (name rule) = AsciiCase.lower asked) :
    (t.put asked rule).Named name := by
  intro entry hentry
  rcases List.mem_cons.1 hentry with rfl | hmem
  · exact hrule.symm
  · exact h entry (List.mem_filter.1 hmem).1

/-- A rule that is merged into another stands under the name of that. -/
theorem Named.add (h : t.Named name) {merge : ρ → ρ → ρ}
    (hmerge : ∀ rule other, name (merge rule other) = name rule) {asked : String}
    (overrides : Bool) {rule : ρ} (hrule : name rule = asked) :
    (t.add merge asked overrides rule).Named name := by
  unfold RuleTable.add
  split
  · next existing hfind =>
    apply h.put
    by_cases hover : overrides = true
    · rw [if_pos hover, hrule]
    · rw [if_neg hover, hmerge]
      exact h.of_find? hfind
  · exact h.put (by rw [hrule])

end RuleTable

end MarkupFilter
