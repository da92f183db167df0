import MarkupFilter.Filter.Basic
import MarkupFilter.Proofs.Filter.Frames
import MarkupFilter.Proofs.Policy.BuiltRules

/-!
# The rules of the baseline policy

The baseline policy is declared with rules of different names and patterns that are well formed, so
its tables hold what is declared. Its rules are read off these tables, and runs of the baseline
filter are evaluated on them: patterns need not be measured nor rules entered each time.

## Main definitions

* `Pattern.ofSource` — the pattern that a text is read as, whatever its size.
* `Policy.baselineTables` — the rules of the baseline policy, the last one first.

## Main results

* `Policy.baseline_eq`, `Filter.baseline_eq` — the baseline policy has these tables.
* `Policy.baseline_hasLocalListeners`, `Policy.baseline_ignoresPlace` — what the baseline policy
  does not ask for.
-/

set_option autoImplicit false

namespace MarkupFilter

/-! ## Patterns as they are read -/

/-- The pattern that a text is read as, whatever its size; a malformed text is read as nothing. -/
def Pattern.ofSource (source : String) : Pattern :=
  { source, expression := (Expression.read? source).getD .empty }

/-- What a text is read as is its pattern, if it is not too large. -/
theorem Pattern.compile?_eq_ofSource {source : String}
    (h : (Expression.read? source).any (·.fits) = true) :
    compile? source = some (ofSource source) := by
  obtain ⟨expression, hread, hfits⟩ := (Option.any_eq_true ..).1 h
  simp only [compile?, ofSource, hread, hfits, if_true, Option.getD_some]

theorem AttributeRule.deny_eq {source : String}
    (h : (Pattern.Expression.read? source).any (·.fits) = true) (rule : AttributeRule) :
    rule.deny source = .ok { rule with denied := rule.denied ++ [.ofSource source] } := by
  rw [deny, Pattern.compile?_eq_ofSource h]

theorem AttributeRule.foldlM_deny_eq {sources : List String}
    (h : ∀ source ∈ sources, (Pattern.Expression.read? source).any (·.fits) = true)
    (rule : AttributeRule) :
    sources.foldlM deny rule =
      .ok { rule with denied := rule.denied ++ sources.map .ofSource } := by
  induction sources generalizing rule with
  | nil => simp [pure, Except.pure]
  | cons source sources ih =>
    obtain ⟨hsource, hrest⟩ := List.forall_mem_cons.1 h
    rw [List.foldlM_cons, deny_eq hsource]
    refine (ih hrest _).trans ?_
    simp

/-! ## The tables of the baseline policy -/

namespace Policy

/-- The attribute rules of the baseline policy, with patterns as they are read. -/
def baselineAttributeRules : List (Declaration AttributeRule) :=
  (plainAttributes.map fun name => { rule := { name := name } }) ++
    (addressAttributes.map fun name =>
      { rule := { name := name, decodesBase64 := true, denied := [.ofSource scriptUrl] } }) ++
    [{ rule := { name := "style", denied := scriptStyles.map .ofSource } }]

/-- The rules of the baseline policy as they are declared. -/
def baselineDraft : PolicyDraft :=
  ⟨baselineElements, baselineAttributeRules⟩

/-- The rules of the baseline policy, the last one first. -/
def baselineTables : Policy where
  elements := ⟨(baselineDraft.elements.map ListenerRegistry.builtin.elementKind.entry).reverse⟩
  attributes :=
    ⟨(baselineDraft.attributes.map ListenerRegistry.builtin.attributeKind.entry).reverse⟩

theorem baselineAttributes_eq : baselineAttributes = .ok baselineAttributeRules := by
  have hurl : (Pattern.Expression.read? scriptUrl).any (·.fits) = true := by decide +kernel
  have hstyles : ∀ source ∈ scriptStyles,
      (Pattern.Expression.read? source).any (·.fits) = true := by decide +kernel
  rw [baselineAttributes, AttributeRule.foldlM_deny_eq hstyles]
  simp only [AttributeRule.deny_eq hurl]
  rfl

theorem baseline?_eq : baseline? = baselineDraft.build := by
  rw [baseline?, baselineAttributes_eq]
  exact pure_bind baselineAttributeRules fun rules => PolicyDraft.build ⟨baselineElements, rules⟩

theorem build_baselineDraft : baselineDraft.build = .ok baselineTables :=
  PolicyDraft.build_of_nodup (by decide +kernel) (by decide +kernel) (by decide +kernel)

theorem baseline_of_ok {p : Policy} (h : baseline? = .ok p) : baseline = p := by
  unfold baseline
  rw [h]

/-- **The baseline policy has the declared rules.** -/
theorem baseline_eq : baseline = baselineTables :=
  baseline_of_ok (baseline?_eq.trans build_baselineDraft)

/-! ## What it does not ask for -/

/-- The rule has listeners of the library at most, and asks neither for end tags nor for what may
stand inside. -/
structure PlainRule (rule : ElementRule) : Prop where
  listeners : ∀ l ∈ rule.listeners, l = .linkRel
  requiresEndTag : rule.requiresEndTag = false
  children : rule.children = []

/-- All element rules of the baseline policy are plain. -/
theorem baseline_plainRule {name : String} {rule : ElementRule}
    (hrule : baseline.elementRule? name = some rule) : PlainRule rule := by
  rw [baseline_eq] at hrule
  have hplain : baselineTables.elements.Every PlainRule := by
    intro entry hentry
    obtain ⟨d, hd, rfl⟩ := List.mem_map.1 (List.mem_reverse.1 hentry)
    simp only [baselineDraft, baselineElements, List.mem_append, List.mem_map, List.mem_cons,
      List.not_mem_nil, or_false] at hd
    have hnone : ∀ l, l ∈ ([] : List ElementListener) → l = .linkRel := by simp
    have hone : ∀ l, l ∈ [ElementListener.linkRel] → l = .linkRel := by simp
    rcases hd with ⟨name, -, rfl⟩ | rfl | rfl | rfl | rfl | rfl | rfl
    case inr.inl => exact ⟨hone, rfl, rfl⟩
    all_goals exact ⟨hnone, rfl, rfl⟩
  exact hplain.of_find? hrule

/-- The attribute rules of the baseline policy have no listeners. -/
theorem baseline_attributeListeners {name : String} {rule : AttributeRule}
    (hrule : baseline.attributeRule? name = some rule) : rule.listeners = [] := by
  rw [baseline_eq] at hrule
  have hnone : baselineTables.attributes.Every fun rule => rule.listeners = [] := by
    intro entry hentry
    obtain ⟨d, hd, rfl⟩ := List.mem_map.1 (List.mem_reverse.1 hentry)
    simp only [baselineDraft, baselineAttributeRules, List.mem_append, List.mem_map,
      List.mem_singleton] at hd
    rcases hd with (⟨name, -, rfl⟩ | ⟨name, -, rfl⟩) | rfl <;> rfl
  exact hnone.of_find? hrule

/-- The baseline policy has local listeners at most. -/
theorem baseline_hasLocalListeners : baseline.HasLocalListeners := by
  intro name rule hrule l hl
  rw [(baseline_plainRule hrule).listeners l hl]
  exact ElementListener.isLocal_linkRel

/-- The baseline policy does not ask where an element stands. -/
theorem baseline_ignoresPlace : baseline.IgnoresPlace :=
  fun _ _ hrule => ⟨(baseline_plainRule hrule).requiresEndTag, (baseline_plainRule hrule).children⟩

end Policy

/-! ## The baseline filter -/

namespace Filter

theorem policy_baseline : Filter.baseline.policy = .baseline := by
  rw [Filter.baseline]

theorem baseline_eq : Filter.baseline = { policy := .baselineTables } := by
  rw [Filter.baseline, Policy.baseline_eq]

/-- By default no address may use the network freely. -/
theorem baseline_deniesNetwork : Filter.baseline.DeniesNetwork := by
  right
  intro url
  rfl

end Filter

end MarkupFilter
