import MarkupFilter.Policy.Basic

/-!
# Rules that are declared more than once

The rules of a draft are entered into one table, whatever their names, and each entry needs the
listeners that it names. What becomes of a name depends on the declarations of that name alone, in
their order; those of other names may stand anywhere between them.

## Main definitions

* `RuleKind` — what rules for elements and rules for attributes have in common.
* `RuleKind.resolve` — the rule that some declarations of one name amount to.
* `PolicyDraft.unknownListener?` — the first listener name of a draft that is not known.
* `PolicyDraft.Rearranged` — a draft with its rules in another order, but for those of one name.

## Main results

* `RuleTable.find?_add` — what is found after one more rule is added.
* `RuleKind.foldlM_add` — declared rules are added if all of their listeners are known.
* `RuleKind.find?_foldl_enter` — what is found is resolved from the declarations of the name.
* `PolicyDraft.build_resolves` — when a draft can be built, and which rules the policy has.
* `PolicyDraft.allows_of_merged` — what a rule allows that is merged from several.
-/

set_option autoImplicit false

namespace MarkupFilter

/-! ## Tables -/

namespace RuleTable

variable {ρ : Type}

theorem find?_put (t : RuleTable ρ) (name : String) (rule : ρ) (asked : String) :
    (t.put name rule).find? asked =
      if AsciiCase.same name asked then some rule else t.find? asked := by
  simp only [put, find?, List.lookup_cons]
  by_cases hsame : AsciiCase.lower name = AsciiCase.lower asked
  · rw [if_pos ((AsciiCase.same_iff ..).2 hsame), hsame, beq_self_eq_true]
  · have hne : (AsciiCase.lower asked == AsciiCase.lower name) = false :=
      beq_eq_false_iff_ne.2 (Ne.symm hsame)
    rw [if_neg fun h => hsame ((AsciiCase.same_iff ..).1 h), hne]
    -- the entries of other names are kept
    show List.lookup (AsciiCase.lower asked) _ = _
    induction t.entries with
    | nil => rfl
    | cons entry entries ih =>
      by_cases hkey : entry.1 = AsciiCase.lower name
      · have hother : (AsciiCase.lower asked == entry.1) = false := by rw [hkey, hne]
        rw [List.filter_cons_of_neg (by simpa using hkey), ih, List.lookup_cons, hother]
      · rw [List.filter_cons_of_pos (by simpa using hkey), List.lookup_cons, List.lookup_cons, ih]

/-- A rule that is added counts for its own name only. -/
theorem find?_add (t : RuleTable ρ) (merge : ρ → ρ → ρ) (name : String) (overrides : Bool)
    (rule : ρ) (asked : String) :
    (t.add merge name overrides rule).find? asked =
      if AsciiCase.same name asked then
        some (match t.find? asked with
          | some existing => if overrides then rule else merge existing rule
          | none => rule)
      else t.find? asked := by
  by_cases hsame : AsciiCase.same name asked = true
  · have hfind : t.find? name = t.find? asked := by
      rw [find?, find?, (AsciiCase.same_iff ..).1 hsame]
    unfold add
    rw [hfind]
    cases t.find? asked <;> rw [find?_put, if_pos hsame, if_pos hsame]
  · unfold add
    cases t.find? name <;> rw [find?_put, if_neg hsame, if_neg hsame]

end RuleTable

/-! ## Declarations of one kind -/

/-- What rules for elements and rules for attributes have in common: rules have names, can be given
the listeners that are known by some names, and can be merged. -/
structure RuleKind (ρ L : Type) where
  name : ρ → String
  listener? : String → Option L
  addListeners : ρ → List L → ρ
  merge : ρ → ρ → ρ

/-- Rules for elements, with the listeners of a registry. -/
def ListenerRegistry.elementKind (registry : ListenerRegistry) :
    RuleKind ElementRule ElementListener :=
  ⟨ElementRule.name, registry.element?, ElementRule.addListeners, ElementRule.merge⟩

/-- Rules for attributes, with the listeners of a registry. -/
def ListenerRegistry.attributeKind (registry : ListenerRegistry) :
    RuleKind AttributeRule AttributeListener :=
  ⟨AttributeRule.name, registry.attribute?, AttributeRule.addListeners, AttributeRule.merge⟩

/-- The declarations of a name, up to letter case. -/
def declaredFor {ρ : Type} (nameOf : ρ → String) (name : String) (ds : List (Declaration ρ)) :
    List (Declaration ρ) :=
  ds.filter fun d => AsciiCase.same (nameOf d.rule) name

namespace RuleKind

variable {ρ L : Type} (K : RuleKind ρ L)

/-- All listeners that the declarations name are known. -/
def KnowsAll (ds : List (Declaration ρ)) : Prop :=
  ∀ d ∈ ds, ∀ name ∈ d.listenerNames, (K.listener? name).isSome = true

/-- The first listener name in the declarations that is not known. -/
def unknown? (ds : List (Declaration ρ)) : Option String :=
  (ds.flatMap Declaration.listenerNames).find? fun name => (K.listener? name).isNone

/-- The declared rule with its own listeners and then those that it names. -/
def listened (d : Declaration ρ) : ρ :=
  K.addListeners d.rule (d.listenerNames.filterMap K.listener?)

/-- The rule of a name after one more declaration of it. The first one makes the rule; a later one
takes its place, or is merged into it. -/
def resolveNext : Option ρ → Declaration ρ → Option ρ
  | none, d => some (K.listened d)
  | some rule, d => some (if d.overrides then K.listened d else K.merge rule (K.listened d))

/-- The rule that the declarations of one name amount to, from the first to the last. -/
def resolve (ds : List (Declaration ρ)) : Option ρ :=
  ds.foldl K.resolveNext none

/-- The table with one more declared rule, whose listeners are known. -/
def enter (t : RuleTable ρ) (d : Declaration ρ) : RuleTable ρ :=
  t.add K.merge (K.name d.rule) d.overrides (K.listened d)

/-! ### Unknown listeners -/

theorem unknown?_eq_none_iff (ds : List (Declaration ρ)) : K.unknown? ds = none ↔ K.KnowsAll ds := by
  simp only [unknown?, KnowsAll, List.find?_eq_none, List.mem_flatMap]
  constructor
  · intro h d hd name hname
    simpa [Option.isSome_iff_ne_none] using h name ⟨d, hd, hname⟩
  · rintro h name ⟨d, hd, hname⟩
    simpa [Option.isSome_iff_ne_none] using h d hd name hname

theorem unknown?_cons (d : Declaration ρ) (ds : List (Declaration ρ)) :
    K.unknown? (d :: ds) =
      (d.listenerNames.find? fun name => (K.listener? name).isNone).or (K.unknown? ds) := by
  rw [unknown?, List.flatMap_cons, List.find?_append, unknown?]

/-- Listeners are resolved if they are all known; else the first that is not is reported. -/
theorem resolveListeners_eq (find : String → Option L) (names : List String) :
    resolveListeners find names =
      match names.find? fun name => (find name).isNone with
      | some name => .error (.unknownListener name)
      | none => .ok (names.filterMap find) := by
  induction names with
  | nil => rfl
  | cons name names ih =>
    rw [resolveListeners, List.find?_cons]
    cases hname : find name with
    | none => rfl
    | some l =>
      dsimp only [Option.isNone_some]
      rw [ih, List.filterMap_cons_some hname]
      cases names.find? fun name => (find name).isNone <;> rfl

/-- **Declared rules are added if all of their listeners are known.** If not, the first listener that
is not known is reported. The induction is on the declarations. -/
theorem foldlM_add {add : RuleTable ρ → Declaration ρ → Except PolicyError (RuleTable ρ)}
    (hadd : ∀ t d, add t d = (resolveListeners K.listener? d.listenerNames).map fun listeners =>
      t.add K.merge (K.name d.rule) d.overrides (K.addListeners d.rule listeners))
    (ds : List (Declaration ρ)) (t : RuleTable ρ) :
    ds.foldlM add t =
      match K.unknown? ds with
      | some name => .error (.unknownListener name)
      | none => .ok (ds.foldl K.enter t) := by
  induction ds generalizing t with
  | nil => rfl
  | cons d ds ih =>
    rw [List.foldlM_cons, hadd, resolveListeners_eq, unknown?_cons]
    cases d.listenerNames.find? fun name => (K.listener? name).isNone with
    | some name => rfl
    | none =>
      rw [Option.none_or]
      exact ih (K.enter t d)

/-! ### Names -/

/-- **What is found is resolved from the declarations of the name.** The induction is on the
declarations: one of another name leaves what is found as it is. -/
theorem find?_foldl_enter (ds : List (Declaration ρ)) (t : RuleTable ρ) (name : String) :
    (ds.foldl K.enter t).find? name =
      (declaredFor K.name name ds).foldl K.resolveNext (t.find? name) := by
  induction ds generalizing t with
  | nil => rfl
  | cons d ds ih =>
    rw [List.foldl_cons, ih, enter, RuleTable.find?_add, declaredFor, declaredFor]
    by_cases hname : AsciiCase.same (K.name d.rule) name = true
    · rw [if_pos hname, List.filter_cons, if_pos hname, List.foldl_cons]
      cases t.find? name <;> rfl
    · rw [if_neg hname, List.filter_cons, if_neg hname]

end RuleKind

/-! ## Drafts -/

namespace PolicyDraft

/-- The first listener name of a draft that the registry does not know; those of elements come
before those of attributes. -/
def unknownListener? (d : PolicyDraft) (registry : ListenerRegistry) : Option String :=
  (registry.elementKind.unknown? d.elements).or (registry.attributeKind.unknown? d.attributes)

/-- A draft is built by entering all of its rules, if all of their listeners are known. -/
theorem build_eq (d : PolicyDraft) (registry : ListenerRegistry) :
    d.build registry =
      match d.unknownListener? registry with
      | some name => .error (.unknownListener name)
      | none => .ok ⟨d.elements.foldl registry.elementKind.enter {},
          d.attributes.foldl registry.attributeKind.enter {}⟩ := by
  have helements : d.elements.foldlM (addElement registry) {} = _ :=
    registry.elementKind.foldlM_add (fun _ _ => rfl) d.elements {}
  have hattributes : d.attributes.foldlM (addAttribute registry) {} = _ :=
    registry.attributeKind.foldlM_add (fun _ _ => rfl) d.attributes {}
  rw [build, helements, unknownListener?]
  cases registry.elementKind.unknown? d.elements with
  | some name => rfl
  | none =>
    rw [hattributes, Option.none_or]
    cases registry.attributeKind.unknown? d.attributes <;> rfl

/-- The rules of a policy that is built. -/
theorem rules_of_build {d : PolicyDraft} {registry : ListenerRegistry} {p : Policy}
    (h : d.build registry = .ok p) (name : String) :
    p.elementRule? name =
        registry.elementKind.resolve (declaredFor ElementRule.name name d.elements) ∧
      p.attributeRule? name =
        registry.attributeKind.resolve (declaredFor AttributeRule.name name d.attributes) := by
  rw [build_eq] at h
  split at h
  · cases h
  · cases h
    exact ⟨registry.elementKind.find?_foldl_enter _ _ _,
      registry.attributeKind.find?_foldl_enter _ _ _⟩

theorem unknownListener?_eq_none_iff (d : PolicyDraft) (registry : ListenerRegistry) :
    d.unknownListener? registry = none ↔ registry.elementKind.KnowsAll d.elements ∧
      registry.attributeKind.KnowsAll d.attributes := by
  rw [unknownListener?, Option.or_eq_none_iff, RuleKind.unknown?_eq_none_iff,
    RuleKind.unknown?_eq_none_iff]

/-- A draft can be built if all of its listeners are known. -/
theorem exists_build_iff (d : PolicyDraft) (registry : ListenerRegistry) :
    (∃ p, d.build registry = .ok p) ↔ registry.elementKind.KnowsAll d.elements ∧
      registry.attributeKind.KnowsAll d.attributes := by
  rw [← unknownListener?_eq_none_iff, build_eq]
  cases d.unknownListener? registry with
  | some name => simp
  | none => simp

end PolicyDraft

/-! ## Merged rules -/

namespace ElementRule

/-- The rule says which elements may stand inside; any may, if it does not. -/
def RestrictsChildren (rule : ElementRule) : Prop :=
  rule.children ≠ []

instance (rule : ElementRule) : Decidable rule.RestrictsChildren :=
  inferInstanceAs (Decidable (rule.children ≠ []))

theorem allowsAttribute_iff (rule : ElementRule) (name : String) :
    rule.allowsAttribute name = true ↔ AsciiCase.lower name ∈ rule.attributes := by
  rw [allowsAttribute, List.contains_iff_mem]

theorem allowsChild_iff (rule : ElementRule) (name : String) :
    rule.allowsChild name = true ↔
      ¬ rule.RestrictsChildren ∨ AsciiCase.lower name ∈ rule.children := by
  simp [allowsChild, RestrictsChildren]

end ElementRule

/-- Declarations that do not override are all merged into the first. -/
theorem RuleKind.resolve_cons {ρ L : Type} (K : RuleKind ρ L) (first : Declaration ρ)
    {later : List (Declaration ρ)} (hlater : ∀ d ∈ later, d.overrides = false) :
    K.resolve (first :: later) =
      some (later.foldl (fun rule d => K.merge rule (K.listened d)) (K.listened first)) := by
  show later.foldl K.resolveNext (some (K.listened first)) = _
  generalize K.listened first = rule
  induction later generalizing rule with
  | nil => rfl
  | cons d later ih =>
    have hd : K.resolveNext (some rule) d = some (K.merge rule (K.listened d)) := by
      rw [RuleKind.resolveNext, hlater d (List.mem_cons_self ..)]
      rfl
    rw [List.foldl_cons, hd, List.foldl_cons]
    exact ih (fun d' hd' => hlater d' (List.mem_cons_of_mem _ hd')) _

/-- Merged rules list what the declared rules list. -/
theorem ListenerRegistry.lists_resolve (registry : ListenerRegistry)
    (first : Declaration ElementRule) {later : List (Declaration ElementRule)}
    (hlater : ∀ d ∈ later, d.overrides = false) :
    ∃ rule, registry.elementKind.resolve (first :: later) = some rule ∧
      rule.attributes = (first :: later).flatMap (fun d => d.rule.attributes) ∧
      rule.children = (first :: later).flatMap (fun d => d.rule.children) := by
  let merge := fun rule d => registry.elementKind.merge rule (registry.elementKind.listened d)
  have hmerged : ∀ (ds : List (Declaration ElementRule)) (rule : ElementRule),
      (ds.foldl merge rule).attributes = rule.attributes ++ ds.flatMap (fun d => d.rule.attributes) ∧
        (ds.foldl merge rule).children = rule.children ++ ds.flatMap (fun d => d.rule.children) := by
    intro ds
    induction ds with
    | nil => simp
    | cons d ds ih =>
      intro rule
      obtain ⟨hattributes, hchildren⟩ := ih (merge rule d)
      rw [List.foldl_cons, hattributes, hchildren, List.flatMap_cons, List.flatMap_cons,
        ← List.append_assoc, ← List.append_assoc]
      exact ⟨rfl, rfl⟩
  exact ⟨_, registry.elementKind.resolve_cons first hlater, hmerged later _⟩

namespace PolicyDraft

/-- **What merged rules allow.** If the later declarations of a name do not override the first, the
rule of the name allows the attributes that one of the declared rules allows. It restricts children
if one of them does, and then it allows those that are allowed by one of the rules which restrict
them; rules that do not restrict children add nothing to that. -/
theorem allows_of_merged {d : PolicyDraft} {registry : ListenerRegistry} {p : Policy}
    (hbuild : d.build registry = .ok p) {name : String} {first : Declaration ElementRule}
    {later : List (Declaration ElementRule)}
    (hdeclared : declaredFor ElementRule.name name d.elements = first :: later)
    (hlater : ∀ declared ∈ later, declared.overrides = false) :
    ∃ rule, p.elementRule? name = some rule ∧ ∀ asked,
      (rule.allowsAttribute asked = true ↔
        ∃ declared ∈ first :: later, declared.rule.allowsAttribute asked = true) ∧
      (rule.allowsChild asked = true ↔
        (∀ declared ∈ first :: later, ¬ declared.rule.RestrictsChildren) ∨
          ∃ declared ∈ first :: later, declared.rule.RestrictsChildren ∧
            declared.rule.allowsChild asked = true) := by
  obtain ⟨rule, hresolve, hattributes, hchildren⟩ := registry.lists_resolve first hlater
  refine ⟨rule, ?_, fun asked => ⟨?_, ?_⟩⟩
  · rw [(rules_of_build hbuild name).1, hdeclared, hresolve]
  · simp only [ElementRule.allowsAttribute_iff, hattributes, List.mem_flatMap]
  · have hnone : ¬ rule.RestrictsChildren ↔
        ∀ declared ∈ first :: later, ¬ declared.rule.RestrictsChildren := by
      simp only [ElementRule.RestrictsChildren, hchildren, ne_eq, Classical.not_not,
        List.flatMap_eq_nil_iff]
    have hlisted : AsciiCase.lower asked ∈ rule.children ↔
        ∃ declared ∈ first :: later, declared.rule.RestrictsChildren ∧
          declared.rule.allowsChild asked = true := by
      rw [hchildren, List.mem_flatMap]
      refine exists_congr fun declared => and_congr_right fun _ => ?_
      rw [ElementRule.allowsChild_iff]
      constructor
      · exact fun hmem => ⟨List.ne_nil_of_mem hmem, .inr hmem⟩
      · exact fun ⟨hrestricts, hallows⟩ => hallows.resolve_left (not_not_intro hrestricts)
    rw [ElementRule.allowsChild_iff, hnone, hlisted]

/-- A list that is declared bit by bit: its attributes first, and later what may stand in it. -/
def mergedLists : PolicyDraft where
  elements :=
    [{ rule := { name := "ul", attributes := ["class"] } },
      { rule := { name := "li", attributes := ["title"] } },
      { rule := { name := "UL", children := ["li"] }, overrides := false },
      { rule := { name := "ul", attributes := ["id"], children := ["b"] }, overrides := false }]

theorem mergedLists_builds : ∃ p, mergedLists.build = .ok p :=
  (exists_build_iff mergedLists .builtin).2
    ⟨by simp [RuleKind.KnowsAll, mergedLists], by simp [RuleKind.KnowsAll, mergedLists]⟩

/-- Three declarations in two spellings, of which the first does not restrict children. -/
theorem allows_of_merged_lists :
    ∃ p, mergedLists.build = .ok p ∧
      declaredFor ElementRule.name "Ul" mergedLists.elements =
        mergedLists.elements[0] :: [mergedLists.elements[2], mergedLists.elements[3]] ∧
      (∀ declared ∈ [mergedLists.elements[2], mergedLists.elements[3]],
        declared.overrides = false) ∧
      ∃ rule, p.elementRule? "Ul" = some rule ∧ rule.allowsAttribute "ID" = true ∧
        rule.allowsAttribute "title" = false ∧ rule.allowsChild "LI" = true ∧
        rule.allowsChild "i" = false := by
  obtain ⟨p, hbuild⟩ := mergedLists_builds
  have hdeclared : declaredFor ElementRule.name "Ul" mergedLists.elements =
      mergedLists.elements[0] :: [mergedLists.elements[2], mergedLists.elements[3]] := rfl
  have hlater : ∀ declared ∈ [mergedLists.elements[2], mergedLists.elements[3]],
      declared.overrides = false := by
    simp [mergedLists]
  obtain ⟨rule, hrule, hallows⟩ := allows_of_merged hbuild hdeclared hlater
  refine ⟨p, hbuild, hdeclared, hlater, rule, hrule, (hallows "ID").1.2 (by decide), ?_,
    (hallows "LI").2.2 (by decide), ?_⟩
  · exact Bool.eq_false_iff.2 (mt (hallows "title").1.1 (by decide))
  · exact Bool.eq_false_iff.2 (mt (hallows "i").2.1 (by decide))

/-- **A rule that restricts children takes something away when it is merged**: the first declaration
of `ul` allows `i` inside, and the rule that is built does not. -/
theorem merged_restricts_children :
    ∃ p rule, mergedLists.build = .ok p ∧ p.elementRule? "ul" = some rule ∧
      (∀ declared ∈ (declaredFor ElementRule.name "ul" mergedLists.elements).tail,
        declared.overrides = false) ∧
      (∃ declared ∈ declaredFor ElementRule.name "ul" mergedLists.elements,
        declared.rule.allowsChild "i" = true) ∧
      rule.allowsChild "i" = false := by
  obtain ⟨p, hbuild⟩ := mergedLists_builds
  have hlater : ∀ declared ∈ [mergedLists.elements[2], mergedLists.elements[3]],
      declared.overrides = false := by
    simp [mergedLists]
  obtain ⟨rule, hresolve, -, hchildren⟩ :=
    ListenerRegistry.builtin.lists_resolve mergedLists.elements[0] hlater
  refine ⟨p, rule, hbuild, (rules_of_build hbuild "ul").1.trans hresolve, by decide,
    ⟨mergedLists.elements[0], List.mem_cons_self .., rfl⟩, ?_⟩
  rw [ElementRule.allowsChild, hchildren]
  decide

end PolicyDraft

end MarkupFilter
