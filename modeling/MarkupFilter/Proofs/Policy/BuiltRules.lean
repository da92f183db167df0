import MarkupFilter.Proofs.Policy.Resolution
import MarkupFilter.Proofs.Policy.Tables
import Mathlib.Data.List.Induction

/-!
# Rules of a built policy

Building a policy enters the declared rules into a table one by one.

## Main definitions

* `RuleKind.entry` — what a declaration puts into a table.

## Main results

* `PolicyDraft.named_of_build` — the rules of a built policy stand under their names.
* `PolicyDraft.build_of_nodup` — declarations of different names are the rules of the policy as they
  are.
-/

set_option autoImplicit false

namespace MarkupFilter

/-! ## Tables -/

namespace RuleKind

variable {ρ L : Type} (K : RuleKind ρ L)

/-- The rules that are entered stand under their names, if rules are not renamed. -/
theorem named_foldl_enter (hmerge : ∀ rule other, K.name (K.merge rule other) = K.name rule)
    (hlisteners : ∀ rule listeners, K.name (K.addListeners rule listeners) = K.name rule)
    (ds : List (Declaration ρ)) {t : RuleTable ρ} (ht : t.Named K.name) :
    (ds.foldl K.enter t).Named K.name := by
  induction ds generalizing t with
  | nil => exact ht
  | cons d ds ih => exact ih (ht.add hmerge d.overrides (hlisteners d.rule _))

/-- What a declaration puts into a table: its rule with all listeners, under its name. -/
def entry (d : Declaration ρ) : String × ρ :=
  (AsciiCase.lower (K.name d.rule), K.listened d)

/-- A rule whose name is not in the table is put in front of it. -/
theorem enter_of_not_mem {t : RuleTable ρ} {d : Declaration ρ}
    (h : (K.entry d).1 ∉ t.entries.map Prod.fst) : K.enter t d = ⟨K.entry d :: t.entries⟩ := by
  have hne : ∀ e ∈ t.entries, AsciiCase.lower (K.name d.rule) ≠ e.1 := fun e he heq =>
    h (List.mem_map.2 ⟨e, he, heq.symm⟩)
  have hfind : t.find? (K.name d.rule) = none :=
    List.lookup_eq_none_iff.2 fun e he => bne_iff_ne.2 (hne e he)
  have hkept : (t.entries.filter fun e => e.1 != AsciiCase.lower (K.name d.rule)) = t.entries :=
    List.filter_eq_self.2 fun e he => bne_iff_ne.2 (hne e he).symm
  rw [enter, RuleTable.add, hfind]
  dsimp only
  rw [RuleTable.put, hkept]
  rfl

/-- **Declarations of different names are entered as they are**, each in front of those before. -/
theorem foldl_enter_of_nodup {ds : List (Declaration ρ)}
    (hds : (ds.map fun d => (K.entry d).1).Nodup) :
    ds.foldl K.enter {} = ⟨(ds.map K.entry).reverse⟩ := by
  induction ds using List.reverseRecOn with
  | nil => rfl
  | append_singleton ds d ih =>
    rw [List.map_append, List.nodup_append] at hds
    obtain ⟨hnodup, -, hdisjoint⟩ := hds
    rw [List.foldl_append, ih hnodup, List.foldl_cons, List.foldl_nil, K.enter_of_not_mem]
    · simp
    · intro hmem
      rw [List.map_reverse, List.mem_reverse, List.map_map] at hmem
      exact hdisjoint _ hmem _ (List.mem_singleton.2 rfl) rfl

end RuleKind

/-! ## Drafts -/

namespace PolicyDraft

variable {d : PolicyDraft} {registry : ListenerRegistry} {p : Policy}

/-- **The rules of a built policy stand under their names.** -/
theorem named_of_build (h : d.build registry = .ok p) :
    p.elements.Named ElementRule.name ∧ p.attributes.Named AttributeRule.name := by
  rw [build_eq] at h
  split at h
  · cases h
  · cases h
    exact ⟨registry.elementKind.named_foldl_enter (fun _ _ => rfl) (fun _ _ => rfl) _
        (by simp [RuleTable.Named]),
      registry.attributeKind.named_foldl_enter (fun _ _ => rfl) (fun _ _ => rfl) _
        (by simp [RuleTable.Named])⟩

/-- **A draft whose rules have different names** is built as it is declared; the last rule comes
first in its table. -/
theorem build_of_nodup (hknown : d.unknownListener? registry = none)
    (helements : (d.elements.map fun r => (registry.elementKind.entry r).1).Nodup)
    (hattributes : (d.attributes.map fun r => (registry.attributeKind.entry r).1).Nodup) :
    d.build registry =
      .ok ⟨⟨(d.elements.map registry.elementKind.entry).reverse⟩,
        ⟨(d.attributes.map registry.attributeKind.entry).reverse⟩⟩ := by
  rw [build_eq, hknown, RuleKind.foldl_enter_of_nodup _ helements,
    RuleKind.foldl_enter_of_nodup _ hattributes]

end PolicyDraft

end MarkupFilter
