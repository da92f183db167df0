import MarkupFilter.Proofs.Filter.GivenSettings
import MarkupFilter.Proofs.Plugin.Histories

/-!
# Filtering a filtered tree

A filter leaves its decisions on the tree: elements and attributes that are enabled or not, and the
values that the object guard has forced. If the tree is filtered again, the rules may reject what
the guard has added, but the guard adds it again, with the same values; and the rest is decided as
it was. So the tree stays as it is, and the same is written.

## Main definitions

* `Filter.GuardedAlike` — the guard reads the same on two elements.

## Main results

* `Filter.decide_marks` — a decision leaves marks on the element and on its attributes only.
* `Filter.protect_again` — the guard does the same to an element that it has protected.
* `Filter.judge_judge` — an element that is judged again is left as it is.
* `Filter.tree_tree` — a tree that is filtered again is left as it is.
-/

set_option autoImplicit false

namespace MarkupFilter

namespace Filter

variable {f : Filter}

/-! ## Decisions -/

/-- **A decision leaves marks only.** Without listeners, the same is decided on all elements that are
written as the same kind of tag; they and their attributes are enabled or disabled, in a way that
gives the same if it is done again. -/
theorem decide_marks (hf : f.policy.ListenerFree) (e : Element) (parent? : Option String)
    (neverClosed : Bool) :
    ∃ (d : Decision) (b : Bool) (enables : Attribute → Bool),
      (∀ a, enables (a.setEnabled (enables a)) = enables a) ∧
      ∀ x, e.SameTag x → f.decide x parent? neverClosed =
        (d, (x.setEnabled b).mapAttributes (·.map fun a => a.setEnabled (enables a))) := by
  have hl : ∀ rule, f.policy.ruleFor? e = some rule → rule.listeners = [] := fun rule => hf.1 _ rule
  have hrule : ∀ x, e.SameTag x → f.policy.ruleFor? x = f.policy.ruleFor? e := fun x hx => by
    rw [Policy.ruleFor?, Policy.ruleFor?, Element.isConditional, Element.isConditional,
      hx.condition, hx.name]
  have hconditional : ∀ x b, e.SameTag x → (x.setEnabled b).isConditional = e.isConditional :=
    fun x b hx => by
      rw [Element.isConditional, Element.isConditional, Element.setEnabled, hx.condition]
  -- attributes that are left as they are
  have hkept : ∀ x : Element, x.mapAttributes (·.map fun a => a.setEnabled a.enabled) = x :=
    fun x => by
      rw [Element.mapAttributes, Attributes.map_eq_self fun a _ => Attribute.setEnabled_self rfl]
  by_cases hc : e.isConditional = true
  · refine ⟨decideEndTag (f.policy.ruleFor? e), decideEndTag (f.policy.ruleFor? e) == .allowed,
      Attribute.enabled, fun _ => rfl, fun x hx => ?_⟩
    rw [hkept]
    simp only [decide, hrule x hx, decideElement_flags hl, hconditional x _ hx, hc, if_true]
  · generalize hd : f.placeDecision (f.policy.ruleFor? e) (decideEndTag (f.policy.ruleFor? e)) e
      parent? neverClosed = d
    have hplace : ∀ x b, e.SameTag x → f.placeDecision (f.policy.ruleFor? e)
        (decideEndTag (f.policy.ruleFor? e)) (x.setEnabled b) parent? neverClosed = d := by
      intro x b hx
      rw [← hd, placeDecision, placeDecision, Element.setEnabled, hx.name]
    by_cases hremoved : d = .removed
    · refine ⟨d, d == .allowed, Attribute.enabled, fun _ => rfl, fun x hx => ?_⟩
      rw [hkept]
      simp only [decide, hrule x hx, decideElement_flags hl, hconditional x _ hx, hc,
        hplace x _ hx, if_pos hremoved]
      rfl
    · have hlisted : ∀ a, f.decideListed (f.policy.ruleFor? e) d e.name a =
          a.setEnabled (f.decideListed (f.policy.ruleFor? e) d e.name a).enabled := by
        intro a
        obtain ⟨b, heq, -⟩ := decideListed_eq hf.2 (f.policy.ruleFor? e) d e.name a
        rw [heq]
        rfl
      refine ⟨d, d == .allowed,
        fun a => (f.decideListed (f.policy.ruleFor? e) d e.name a).enabled,
        fun a => enabled_decideListed hf.2 _ _ _ rfl rfl, fun x hx => ?_⟩
      simp only [decide, hrule x hx, decideElement_flags hl, hconditional x _ hx, hc,
        hplace x _ hx, if_neg hremoved]
      show (d, (x.setEnabled (d == .allowed)).mapAttributes
        (·.map (f.decideListed (f.policy.ruleFor? e) d x.name))) = _
      rw [hx.name]
      exact congrArg (fun g => (d, (x.setEnabled (d == .allowed)).mapAttributes (·.map g)))
        (funext hlisted)

/-! ## What the guard reads -/

/-- The guard reads the same on the two elements. -/
structure GuardedAlike (e x : Element) : Prop where
  setting : x.setting? = e.setting?
  address : x.address? = e.address?
  src : x.attributes.value? "src" = e.attributes.value? "src"

theorem GuardedAlike.trans {e x y : Element} (h : GuardedAlike e x) (h' : GuardedAlike x y) :
    GuardedAlike e y :=
  ⟨h'.setting.trans h.setting, h'.address.trans h.address, h'.src.trans h.src⟩

/-- What the guard reads are a few values. -/
theorem GuardedAlike.of_values {e x : Element} (hname : x.name = e.name)
    (hsetting : settingOf? x.attributes = settingOf? e.attributes)
    (haddress : x.address? = e.address?)
    (hsrc : x.attributes.value? "src" = e.attributes.value? "src") : GuardedAlike e x := by
  refine ⟨?_, haddress, hsrc⟩
  rw [Element.setting?, Element.setting?, Element.isNamed, hname, hsetting]
  rfl

/-- The guard reads values, whether they are enabled or not. -/
theorem guardedAlike_marks (e : Element) (b : Bool) (enables : Attribute → Bool) :
    GuardedAlike e ((e.setEnabled b).mapAttributes (·.map fun a => a.setEnabled (enables a))) := by
  have hvalue : ∀ name, (e.attributes.map fun a => a.setEnabled (enables a)).value? name =
      e.attributes.value? name := value?_setEnabled e.attributes enables
  have hsetting : settingOf? (e.attributes.map fun a => a.setEnabled (enables a)) =
      settingOf? e.attributes := by
    rw [settingOf?, settingOf?, hvalue]
  refine .of_values rfl hsetting ?_ (hvalue "src")
  simp only [Element.address?, ObjectGuard.addressOf?, Element.mapAttributes, Element.setEnabled,
    hvalue]
  rfl

/-- The guard forces values neither on the address of an embedded element nor on the name of a
parameter, and on the value of a parameter only if that is no address. -/
theorem mem_forces {g : ObjectGuard} {e : Element} {d : Decision} {v : String × String}
    (hv : v ∈ f.forces g e d) :
    AsciiCase.lower "src" ≠ AsciiCase.lower v.1 ∧
      (e.isNamed "param" = true → v.1 = "value" ∧ e.setting?.isSome = true) := by
  have hsrc : AsciiCase.lower "src" ≠ AsciiCase.lower "value" ∧
      ∀ s : SafetySetting, AsciiCase.lower "src" ≠ AsciiCase.lower s.name :=
    ⟨by decide, fun s => by cases s <;> decide⟩
  unfold forces at hv
  split at hv
  · split at hv
    · next hparam =>
      cases hsetting : settingOf? e.attributes with
      | none =>
        rw [hsetting] at hv
        cases hv
      | some s =>
        rw [hsetting] at hv
        obtain rfl := List.mem_singleton.1 hv
        refine ⟨hsrc.1, fun _ => ⟨rfl, ?_⟩⟩
        rw [Element.setting?, if_pos hparam, hsetting]
        rfl
    · next hparam =>
      refine ⟨?_, fun h => absurd h hparam⟩
      split at hv
      · obtain ⟨s, -, rfl⟩ := List.mem_map.1 hv
        exact hsrc.2 s
      · cases hv
  · cases hv

/-- The guard reads the same on an element that it has protected. -/
theorem guardedAlike_protect (g : ObjectGuard) (e : Element) (d : Decision) :
    GuardedAlike e (f.protect g e d).2.2 := by
  have hvalue : ∀ name, (∀ v ∈ f.forces g e d, AsciiCase.lower name ≠ AsciiCase.lower v.1) →
      (f.protect g e d).2.2.attributes.value? name = e.attributes.value? name := fun name h => by
    rw [element_protect]
    exact Attributes.value?_forceAll h e.attributes
  have hname := (sameTag_protect f g e d).name
  have hsrc := hvalue "src" fun v hv => (mem_forces hv).1
  by_cases hparam : e.isNamed "param" = true
  · have hnamed : (f.protect g e d).2.2.isNamed "param" = true := by
      rw [Element.isNamed, hname]
      exact hparam
    have hsetting : settingOf? (f.protect g e d).2.2.attributes = settingOf? e.attributes := by
      have hkept := hvalue "name" fun v hv => by
        rw [((mem_forces hv).2 hparam).1]
        decide
      rw [settingOf?, settingOf?, hkept]
    refine .of_values hname hsetting ?_ hsrc
    cases hgiven : settingOf? e.attributes with
    | none =>
      -- nothing is forced
      have hnothing : f.forces g e d = [] := by
        rw [forces, if_pos hparam, hgiven]
        exact ite_self _
      rw [element_protect, hnothing]
      rfl
    | some s =>
      -- what names a setting gives no address
      have hbefore : e.setting? = some s := by
        rw [Element.setting?, if_pos hparam, hgiven]
      have hafter : (f.protect g e d).2.2.setting? = some s := by
        rw [Element.setting?, if_pos hnamed, hsetting, hgiven]
      rw [Element.address?_of_setting? hbefore, Element.address?_of_setting? hafter]
  · have hnamed : ¬ (f.protect g e d).2.2.isNamed "param" = true := by
      rw [Element.isNamed, hname]
      exact hparam
    refine ⟨?_, ?_, hsrc⟩
    · rw [Element.setting?, Element.setting?, if_neg hparam, if_neg hnamed]
    · rw [Element.address?, Element.address?, if_neg hparam, if_neg hnamed]

/-- What the guard notes of a parameter is what it reads on it. -/
theorem param_congr (urls : UrlAllowList) (g : ObjectGuard) {e x : Element}
    (he : e.isNamed "param" = true) (hx : x.isNamed "param" = true) (h : GuardedAlike e x) :
    (g.param urls x).1 = (g.param urls e).1 := by
  have hread : ∀ y : Element, y.isNamed "param" = true →
      (GuardCall.param y).address? = y.address? ∧ settingOf? y.attributes = y.setting? := by
    intro y hy
    rw [Element.address?, Element.setting?, if_pos hy, if_pos hy]
    refine ⟨?_, rfl⟩
    simp only [GuardCall.address?, ObjectGuard.addressOf?]
    cases y.attributes.value? "name" <;> rfl
  rw [ObjectGuard.guard_param, ObjectGuard.guard_param, (hread x hx).1, (hread x hx).2,
    (hread e he).1, (hread e he).2, h.setting, h.address]

/-- The guard does the same to elements on which it reads the same. -/
theorem protect_congr (g : ObjectGuard) {e x : Element} (hx : e.SameTag x) (h : GuardedAlike e x)
    (d : Decision) :
    (f.protect g x d).1 = (f.protect g e d).1 ∧ (f.protect g x d).2.1 = (f.protect g e d).2.1 ∧
      f.forces g x d = f.forces g e d := by
  have hnamed : ∀ name, x.isNamed name = e.isNamed name := fun name => by
    rw [Element.isNamed, Element.isNamed, hx.name]
  unfold protect forces
  by_cases hprotected : (f.settings.protectObjects && d == .allowed) = true
  · simp only [if_pos hprotected, hnamed, hx.selfClosed]
    by_cases hparam : e.isNamed "param" = true
    · have hsetting : settingOf? x.attributes = settingOf? e.attributes := by
        have := h.setting
        rwa [Element.setting?, Element.setting?, hnamed, if_pos hparam, if_pos hparam] at this
      have hguard := param_congr f.settings.urlAllowList g hparam ((hnamed _).trans hparam) h
      simp only [if_pos hparam, hsetting, hguard, and_self]
    · simp only [if_neg hparam, embeddedNetworking, h.src]
      by_cases hembed : e.isNamed "embed" = true
      · simp only [if_pos hembed, and_self]
      · simp only [if_neg hembed]
        by_cases hobject : (e.isNamed "object" && !e.selfClosed) = true
        · simp only [if_pos hobject, and_self]
        · simp only [if_neg hobject, and_self]
  · simp only [if_neg hprotected, and_self]

/-- **The guard does the same to an element that it has protected**, if that is marked again in
between. -/
theorem protect_again (g : ObjectGuard) (e : Element) (d : Decision) {b : Bool}
    (hb : e.enabled = b) {enables : Attribute → Bool}
    (henables : ∀ a ∈ e.attributes.toList, enables a = a.enabled) :
    f.protect g (((f.protect g e d).2.2.setEnabled b).mapAttributes
      (·.map fun a => a.setEnabled (enables a))) d = f.protect g e d := by
  have hforced := element_protect (f := f) g e d
  generalize hy : (f.protect g e d).2.2 = y at hforced ⊢
  have hmarked : e.SameTag ((y.setEnabled b).mapAttributes
      (·.map fun a => a.setEnabled (enables a))) := by
    rw [hforced]
    exact ⟨rfl, rfl, rfl, rfl⟩
  have halike : GuardedAlike e ((y.setEnabled b).mapAttributes
      (·.map fun a => a.setEnabled (enables a))) := by
    rw [← hy]
    exact (guardedAlike_protect g e d).trans (guardedAlike_marks _ b enables)
  obtain ⟨hkey, hguard, hforces⟩ := protect_congr (f := f) g hmarked halike d
  have hattributes : Attributes.forceAll (f.forces g e d)
      (y.attributes.map fun a => a.setEnabled (enables a)) = y.attributes := by
    rw [hforced]
    refine Attributes.forceAll_eq_self (Attributes.contains_forceAll _ _).1
      (fun a ha v hv => Attributes.holds_forceAll (nodup_forces g e d) ha hv) enables
      fun a ha => ?_
    by_cases hkeyed : ∃ v ∈ f.forces g e d, a.key = AsciiCase.lower v.1
    · exact .inr hkeyed
    · exact .inl (henables a (Attributes.mem_of_mem_forceAll ha
        fun v hv heq => hkeyed ⟨v, hv, heq⟩))
  have helement : (f.protect g ((y.setEnabled b).mapAttributes
      (·.map fun a => a.setEnabled (enables a))) d).2.2 = y := by
    rw [element_protect, hforces]
    have henabled : y.enabled = b := by
      rw [hforced]
      exact hb
    simp only [Element.mapAttributes, Element.setEnabled, hattributes, ← henabled]
  exact Prod.ext hkey (Prod.ext hguard (helement.trans hy.symm))

/-! ## Verdicts -/

/-- **An element that is judged again is left as it is**, and the verdict on it is the same. -/
theorem judge_judge (hf : f.policy.ListenerFree) (g : ObjectGuard) (e : Element)
    (parent? : Option String) (neverClosed : Bool) :
    f.judge g (f.judge g e parent? neverClosed).element parent? neverClosed =
      f.judge g e parent? neverClosed := by
  obtain ⟨d, b, enables, hmarks, hdecide⟩ := decide_marks hf e parent? neverClosed
  have hfirst := hdecide e ⟨rfl, rfl, rfl, rfl⟩
  have hagain := hdecide _ (sameTag_judge hf.hasLocalListeners g e parent? neverClosed)
  have hmarked : ∀ a ∈ (e.attributes.map fun a => a.setEnabled (enables a)).toList,
      enables a = a.enabled := by
    intro a ha
    obtain ⟨a', -, rfl⟩ := List.mem_map.1 ha
    exact hmarks a'
  have hprotect := protect_again (f := f) g ((e.setEnabled b).mapAttributes
    (·.map fun a => a.setEnabled (enables a))) d (b := b) rfl hmarked
  have helement : (f.judge g e parent? neverClosed).element =
      (f.protect g ((e.setEnabled b).mapAttributes
        (·.map fun a => a.setEnabled (enables a))) d).2.2 := by
    rw [judge, hfirst]
  rw [helement] at hagain ⊢
  rw [judge, judge, hfirst, hagain]
  dsimp only
  rw [hprotect]

/-! ## Trees -/

mutual

/-- A node that is filtered again is left as it is, and the same is written. -/
theorem node_node (hf : f.policy.ListenerFree) (parent? : Option String) (p : Progress)
    (t : Markup) : f.node parent? p (f.node parent? p t).1 = f.node parent? p t := by
  match t with
  | .node (.text raw) cs => rfl
  | .node (.stray raw (.endTag name)) cs => rfl
  | .node (.stray raw .conditional) cs => rfl
  | .node (.comment body) cs => rfl
  | .node .fragment cs => rfl
  | .node (.element e) cs =>
    have hjudge := judge_judge hf p.guard e parent? e.isNeverClosed
    have hnever :=
      (sameTag_judge hf.hasLocalListeners p.guard e parent? e.isNeverClosed).isNeverClosed
    simp only [node, hnever, hjudge, nodes_nodes hf]

/-- A row of nodes that is filtered again is left as it is, and the same is written. -/
theorem nodes_nodes (hf : f.policy.ListenerFree) (parent? : Option String) (p : Progress)
    (ts : List Markup) : f.nodes parent? p (f.nodes parent? p ts).1 = f.nodes parent? p ts := by
  match ts with
  | [] => rfl
  | t :: ts =>
    simp only [nodes, node_node hf parent? p t]
    rw [nodes_nodes hf parent? _ ts]

end

/-- **A tree that is filtered again is left as it is**, and the same is written: without listeners,
nothing else is decided, and nothing else is forced, than what was left on the tree. -/
theorem tree_tree (hf : f.policy.ListenerFree) (m : Markup) :
    f.tree (f.tree m).1 = f.tree m := by
  have hprepare : ∀ ts : List Markup, ts.map (f.policy.prepare Policy.listenerDepth) = ts :=
    fun ts => (List.map_congr_left fun t _ =>
      Policy.prepare_eq hf.hasLocalListeners Policy.listenerDepth t).trans (List.map_id' ts)
  obtain ⟨content, children⟩ := m
  simp only [tree, hprepare, nodes_nodes hf]

/-- A filter that allows embedded elements and parameters, with none of the attributes on which the
guard forces values. -/
def players : Filter where
  policy :=
    { elements := ⟨[("embed", { name := "embed", attributes := ["src"] }),
        ("param", { name := "param", attributes := ["name"] })]⟩
      attributes := ⟨[("name", { name := "name" }), ("src", { name := "src" })]⟩ }
  settings := { withComments := false, urlAllowList := .startingWith ["http://a/"] }

/-- A tag without a rule becomes text, a value that the rules reject is forced, and settings are
added that they reject as well; then nothing is changed any more. -/
theorem tree_tree_players :
    players.policy.ListenerFree ∧
      (players.tree (Markup.parse "<b><embed SRC=http://a/b><param NAME=nojava VALUE=0>")).2 =
        "&lt;b&gt;<embed SRC=http://a/b" ++
          String.join (SafetySetting.all.map fun s =>
            " " ++ s.name ++ "=\"" ++ s.value .all ++ "\"") ++
          "><param NAME=nojava VALUE=\"true\">" ∧
      players.tree
          (players.tree (Markup.parse "<b><embed SRC=http://a/b><param NAME=nojava VALUE=0>")).1 =
        players.tree (Markup.parse "<b><embed SRC=http://a/b><param NAME=nojava VALUE=0>") := by
  have hf : players.policy.ListenerFree := by
    have helements : players.policy.elements.Every fun rule => rule.listeners = [] := by
      simp [RuleTable.Every, players]
    have hattributes : players.policy.attributes.Every fun rule => rule.listeners = [] := by
      simp [RuleTable.Every, players]
    exact ⟨fun _ _ hrule => helements.of_find? hrule, fun _ _ hrule => hattributes.of_find? hrule⟩
  exact ⟨hf, by decide +kernel, tree_tree hf _⟩

end Filter

end MarkupFilter
