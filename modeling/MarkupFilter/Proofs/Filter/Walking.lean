import MarkupFilter.Filter.ByPiece
import MarkupFilter.Filter.ByTree
import MarkupFilter.Proofs.Markup.Forests

/-!
# Walking through an outline

Filtering a tree is a walk through the nodes of its outline. If listeners look at names and
attributes only, the walk goes through the outline as it was built, and the decision on an element
does not depend on what has become of its end tag.

## Main definitions

* `ElementListener.IsLocal`, `Policy.HasLocalListeners` — listeners that change attributes only.
* `Filter.walk`, `Filter.visit` — the progress through a list of nodes, and through one.

## Main results

* `Filter.byTree_eq_walk` — the filtered text is that of a walk through the outline.
* `Filter.walk_append` — a walk through two stretches of nodes.
* `Filter.judge_withEnding` — the end tag of an element does not count for its verdict.
-/

set_option autoImplicit false

namespace MarkupFilter

/-! ## Listeners -/

/-- The listener acts on single elements, looks at the name and the attributes, and changes the
attributes only. -/
structure ElementListener.IsLocal (l : ElementListener) : Prop where
  onElement : ∃ h : String → Attributes → Attributes, ∀ e, l.onElement e = e.mapAttributes (h e.name)
  onSubtree : ∀ e children, l.onSubtree e children = (e, children)

/-- All element listeners of the policy are local. -/
def Policy.HasLocalListeners (p : Policy) : Prop :=
  ∀ name rule, p.elementRule? name = some rule → ∀ l ∈ rule.listeners, l.IsLocal

/-- The listener on links looks at the name, and changes the attributes only. -/
theorem ElementListener.isLocal_linkRel : linkRel.IsLocal := by
  refine ⟨⟨fun name as =>
    if AsciiCase.same name "a" then as.set "rel" "noopener noreferrer" else as, fun e => ?_⟩,
    fun _ _ => rfl⟩
  unfold linkRel Element.isNamed
  dsimp only
  by_cases ha : AsciiCase.same e.name "a" = true
  · simp only [ha, if_true]
  · simp only [ha]
    rfl

/-- Local listeners together change the attributes only. -/
theorem ElementListener.applyAll_eq {listeners : List ElementListener}
    (hl : ∀ l ∈ listeners, l.IsLocal) :
    ∃ h : String → Attributes → Attributes, ∀ e, applyAll listeners e = e.mapAttributes (h e.name) := by
  induction listeners with
  | nil => exact ⟨fun _ as => as, fun e => rfl⟩
  | cons l listeners ih =>
    obtain ⟨h₁, hl₁⟩ := (hl l (List.mem_cons_self ..)).onElement
    obtain ⟨h₂, hl₂⟩ := ih fun l' hl' => hl l' (List.mem_cons_of_mem _ hl')
    refine ⟨fun name as => h₂ name (h₁ name as), fun e => ?_⟩
    rw [applyAll, List.foldl_cons, ← applyAll, hl₁, hl₂]
    rfl

theorem ElementListener.applyAllToSubtree_eq {listeners : List ElementListener}
    (hl : ∀ l ∈ listeners, l.IsLocal) (e : Element) (children : List Markup) :
    applyAllToSubtree listeners e children = (e, children) := by
  induction listeners with
  | nil => rfl
  | cons l listeners ih =>
    rw [applyAllToSubtree, List.foldl_cons]
    dsimp only
    rw [(hl l (List.mem_cons_self ..)).onSubtree]
    exact ih fun l' hl' => hl l' (List.mem_cons_of_mem _ hl')

namespace Policy

variable {p : Policy}

theorem HasLocalListeners.ruleFor? (hp : p.HasLocalListeners) (e : Element) :
    ∀ l ∈ ((p.ruleFor? e).map ElementRule.listeners).getD [], l.IsLocal := by
  intro l hl
  cases hrule : p.ruleFor? e with
  | none => rw [hrule] at hl; cases hl
  | some rule =>
    rw [hrule] at hl
    exact hp _ rule hrule l hl

/-- Local listeners leave a tree as it is. -/
theorem prepare_eq (hp : p.HasLocalListeners) (depth : Nat) (t : Markup) :
    p.prepare depth t = t := by
  induction depth generalizing t with
  | zero =>
    rw [prepare]
    intro _ _ _ h
    cases h
  | succ depth ih =>
    obtain ⟨content, children⟩ := t
    have hother : (∀ e, content ≠ .element e) →
        p.prepare (depth + 1) (.node content children) = .node content children := by
      intro hne
      rw [prepare]
      rintro _ e _ - ⟨⟩
      exact hne e rfl
    cases content with
    | element e =>
      have hchildren : children.map (p.prepare depth) = children :=
        (List.map_congr_left fun t _ => ih t).trans (List.map_id' children)
      rw [prepare, ElementListener.applyAllToSubtree_eq (hp.ruleFor? e)]
      dsimp only
      rw [hchildren]
    | fragment => exact hother (by simp)
    | text raw => exact hother (by simp)
    | stray raw closing => exact hother (by simp)
    | comment body => exact hother (by simp)

end Policy

namespace Filter

variable (f : Filter)

/-! ## Walks -/

/-- The progress through a list of nodes that stand in the element `parent?`. -/
def walk (parent? : Option String) (p : Progress) (nodes : List Outlined) : Progress :=
  (f.nodes parent? p (Outline.trees nodes)).2

/-- The progress through one node with the nodes inside it. -/
def visit (parent? : Option String) (p : Progress) (c : Content) (inside : List Outlined) :
    Progress :=
  (f.node parent? p (.node c (Outline.trees inside))).2

/-- The progress after the start tag of an element. -/
def startProgress (p : Progress) (v : Verdict) : Progress :=
  Progress.write { p with guard := v.guard } (f.renderStartTag v.element v.decision)

/-- The progress after the end tag of an element in its place. -/
def endProgress (p : Progress) (x : OpenedElement) : Progress :=
  let ended := endObject p.guard x.objectKey? true
  Progress.write { p with guard := ended.2 } (f.renderEndTag x.name x.decision ended.1)

/-- What is remembered of an element until its end tag. -/
def Verdict.opened (v : Verdict) : OpenedElement :=
  ⟨v.element.name, v.decision, v.objectKey?⟩

theorem closeElement_closed (v : Verdict) (p : Progress) (h : v.element.ending = .closed) :
    f.closeElement v p = f.endProgress p v.opened := by
  unfold closeElement endProgress endObject Verdict.opened
  rw [h]
  cases v.objectKey? <;> rfl

/-- Without an end tag in its place an element adds nothing to what is inside. -/
theorem text_closeElement (v : Verdict) (p : Progress) (h : v.element.ending ≠ .closed) :
    (f.closeElement v p).text = p.text := by
  unfold closeElement
  split
  · contradiction
  · contradiction
  · rfl
  · rfl

theorem closeElement_missing (v : Verdict) (p : Progress) (h : v.element.ending = .missing) :
    f.closeElement v p = p := by
  unfold closeElement
  rw [h]

@[simp] theorem walk_nil (parent? : Option String) (p : Progress) : f.walk parent? p [] = p := by
  rw [walk, Outline.trees_nil, nodes]

theorem walk_cons (parent? : Option String) (p : Progress) (o : Outlined) (os : List Outlined) :
    f.walk parent? p (o :: os) =
      f.walk parent? (f.visit parent? p o.content (os.take o.extent)) (os.drop o.extent) := by
  rw [walk, Outline.trees_cons, nodes]
  rfl

theorem visit_element (parent? : Option String) (p : Progress) (e : Element)
    (inside : List Outlined) :
    f.visit parent? p (.element e) inside =
      let v := f.judge p.guard e parent? e.isNeverClosed
      f.closeElement v (f.walk (some v.element.name) (f.startProgress p v) inside) := by
  rw [visit, node]
  rfl

/-- What is not an element is written by itself. -/
theorem visit_other (parent? : Option String) (p : Progress) {c : Content}
    (hc : ∀ e, c ≠ .element e) (inside : List Outlined) :
    f.visit parent? p c inside = f.visit none p c [] := by
  match c, hc with
  | .fragment, _ => rw [visit, visit, node, node]
  | .text raw, _ => rw [visit, visit, node, node]
  | .stray raw (.endTag name), _ => rw [visit, visit, node, node]
  | .stray raw .conditional, _ => rw [visit, visit, node, node]
  | .comment body, _ => rw [visit, visit, node, node]
  | .element e, hc => exact absurd rfl (hc e)

theorem nodes_append (parent? : Option String) (p : Progress) (ts us : List Markup) :
    (f.nodes parent? p (ts ++ us)).2 =
      (f.nodes parent? (f.nodes parent? p ts).2 us).2 := by
  induction ts generalizing p with
  | nil => rw [List.nil_append, nodes]
  | cons t ts ih =>
    rw [List.cons_append, nodes, nodes]
    exact ih _

/-- **A walk through two stretches of nodes**, of which the first is closed in itself. -/
theorem walk_append (parent? : Option String) (p : Progress) {xs : List Outlined}
    (ys : List Outlined) (h : Outline.InRange xs) :
    f.walk parent? p (xs ++ ys) = f.walk parent? (f.walk parent? p xs) ys := by
  rw [walk, Outline.trees_append ys h, nodes_append]
  rfl

/-- A walk through one node without others inside. -/
theorem walk_singleton (parent? : Option String) (p : Progress) (c : Content) (extent : Nat) :
    f.walk parent? p [⟨c, extent⟩] = f.visit parent? p c [] := by
  rw [walk_cons, List.take_nil, List.drop_nil, walk_nil]

/-- **The filtered text is that of a walk through the outline.** -/
theorem byTree_eq_walk (hf : f.policy.HasLocalListeners) (input : String) :
    f.byTree input =
      (f.walk none {} (Outline.ofPieces (Piece.ofDocument input)).nodes.toList).text := by
  have hprepare : ∀ ts : List Markup, ts.map (f.policy.prepare Policy.listenerDepth) = ts :=
    fun ts => (List.map_congr_left fun t _ => Policy.prepare_eq hf _ t).trans (List.map_id' ts)
  rw [byTree, Markup.parse, Outline.markup, Outline.forest_eq_trees, tree]
  dsimp only
  rw [hprepare]
  rfl

end Filter

/-! ## Verdicts -/

/-- The element with the given ending. -/
def Element.withEnding (ending : Ending) (e : Element) : Element :=
  { e with ending := ending }

/-- The verdict on the same element with the given ending. -/
def Filter.Verdict.withEnding (ending : Ending) (v : Filter.Verdict) : Filter.Verdict :=
  { v with element := v.element.withEnding ending }

namespace Filter

variable {f : Filter}

/-- The end tag of an element does not count for what a rule says. -/
theorem decideElement_withEnding {rule? : Option ElementRule}
    (hl : ∀ l ∈ (rule?.map ElementRule.listeners).getD [], l.IsLocal) (ending : Ending)
    (e : Element) :
    decideElement rule? (e.withEnding ending) =
      ((decideElement rule? e).1, (decideElement rule? e).2.withEnding ending) := by
  cases rule? with
  | none => rfl
  | some rule =>
    have hrule : ∀ l ∈ rule.listeners, l.IsLocal := hl
    obtain ⟨h, hh⟩ := ElementListener.applyAll_eq hrule
    simp only [decideElement]
    rw [hh, hh]
    split <;> rfl

theorem decide_withEnding (hf : f.policy.HasLocalListeners) (ending : Ending) (e : Element)
    (parent? : Option String) (neverClosed : Bool) :
    f.decide (e.withEnding ending) parent? neverClosed =
      ((f.decide e parent? neverClosed).1,
        (f.decide e parent? neverClosed).2.withEnding ending) := by
  have hrule : f.policy.ruleFor? (e.withEnding ending) = f.policy.ruleFor? e := rfl
  simp only [decide, hrule, decideElement_withEnding (hf.ruleFor? e)]
  generalize decideElement (f.policy.ruleFor? e) e = decided
  obtain ⟨d, x⟩ := decided
  have hconditional : (x.withEnding ending).isConditional = x.isConditional := rfl
  have hplace : f.placeDecision (f.policy.ruleFor? e) d (x.withEnding ending) parent? neverClosed =
      f.placeDecision (f.policy.ruleFor? e) d x parent? neverClosed := rfl
  rw [hconditional, hplace]
  split
  · rfl
  · split <;> rfl

theorem protect_withEnding (g : ObjectGuard) (ending : Ending) (e : Element) (d : Decision) :
    f.protect g (e.withEnding ending) d =
      ((f.protect g e d).1, (f.protect g e d).2.1, (f.protect g e d).2.2.withEnding ending) := by
  have hparam : (g.param f.settings.urlAllowList (e.withEnding ending)) =
      ((g.param f.settings.urlAllowList e).1,
        (g.param f.settings.urlAllowList e).2.withEnding ending) := by
    unfold ObjectGuard.param
    have hattributes : (e.withEnding ending).attributes = e.attributes := rfl
    rw [hattributes]
    split
    · rfl
    · dsimp only
      split <;> rfl
  have hnamed : ∀ name, (e.withEnding ending).isNamed name = e.isNamed name := fun _ => rfl
  have hself : (e.withEnding ending).selfClosed = e.selfClosed := rfl
  unfold protect
  rw [hnamed, hnamed, hnamed, hself, hparam]
  split
  · split
    · rfl
    · split
      · rfl
      · split <;> rfl
  · rfl

/-- **The end tag of an element does not count for its verdict.** -/
theorem judge_withEnding (hf : f.policy.HasLocalListeners) (g : ObjectGuard) (ending : Ending)
    (e : Element) (parent? : Option String) (neverClosed : Bool) :
    f.judge g (e.withEnding ending) parent? neverClosed =
      (f.judge g e parent? neverClosed).withEnding ending := by
  simp only [judge, decide_withEnding hf, protect_withEnding]
  rfl

end Filter

/-! ### What a verdict leaves as it is -/

/-- The two elements are written as the same kind of tag; attributes aside, and whether they are
enabled. -/
structure Element.SameTag (e e' : Element) : Prop where
  name : e'.name = e.name
  condition : e'.condition = e.condition
  ending : e'.ending = e.ending
  selfClosed : e'.selfClosed = e.selfClosed

theorem Element.SameTag.trans {e e' e'' : Element} (h : e.SameTag e') (h' : e'.SameTag e'') :
    e.SameTag e'' :=
  ⟨h'.name.trans h.name, h'.condition.trans h.condition, h'.ending.trans h.ending,
    h'.selfClosed.trans h.selfClosed⟩

theorem Element.SameTag.isNeverClosed {e e' : Element} (h : e.SameTag e') :
    e'.isNeverClosed = e.isNeverClosed := by
  rw [Element.isNeverClosed, Element.isNeverClosed, h.ending, h.selfClosed]

theorem Element.sameTag_mapAttributes (e : Element) (g : Attributes → Attributes) :
    e.SameTag (e.mapAttributes g) :=
  ⟨rfl, rfl, rfl, rfl⟩

theorem Element.sameTag_setEnabled (e : Element) (enabled : Bool) :
    e.SameTag (e.setEnabled enabled) :=
  ⟨rfl, rfl, rfl, rfl⟩

namespace Filter

variable {f : Filter}

theorem sameTag_decideElement {rule? : Option ElementRule}
    (hl : ∀ l ∈ (rule?.map ElementRule.listeners).getD [], l.IsLocal) (e : Element) :
    e.SameTag (decideElement rule? e).2 := by
  cases rule? with
  | none => exact e.sameTag_setEnabled false
  | some rule =>
    have hrule : ∀ l ∈ rule.listeners, l.IsLocal := hl
    obtain ⟨h, hh⟩ := ElementListener.applyAll_eq hrule
    simp only [decideElement]
    rw [hh]
    split
    · exact e.sameTag_setEnabled _
    · exact (e.sameTag_mapAttributes _).trans (Element.sameTag_setEnabled _ _)

theorem sameTag_decide (hf : f.policy.HasLocalListeners) (e : Element) (parent? : Option String)
    (neverClosed : Bool) : e.SameTag (f.decide e parent? neverClosed).2 := by
  have h := sameTag_decideElement (hf.ruleFor? e) e
  simp only [decide]
  split
  · exact h
  · split
    · exact h.trans (Element.sameTag_setEnabled _ _)
    · exact (h.trans (Element.sameTag_setEnabled _ _)).trans (Element.sameTag_mapAttributes _ _)

theorem sameTag_protect (f : Filter) (g : ObjectGuard) (e : Element) (d : Decision) :
    e.SameTag (f.protect g e d).2.2 := by
  have hrefl : e.SameTag e := ⟨rfl, rfl, rfl, rfl⟩
  have hparam : e.SameTag (g.param f.settings.urlAllowList e).2 := by
    unfold ObjectGuard.param
    split
    · exact hrefl
    · dsimp only
      split
      · exact hrefl
      · exact e.sameTag_mapAttributes _
  have hembed : e.SameTag (ObjectGuard.embed f.settings.urlAllowList e) := by
    unfold ObjectGuard.embed
    exact e.sameTag_mapAttributes _
  unfold protect
  by_cases hprotected : (f.settings.protectObjects && d == .allowed) = true
  · rw [if_pos hprotected]
    by_cases hp : e.isNamed "param" = true
    · rw [if_pos hp]
      exact hparam
    · rw [if_neg hp]
      by_cases hnamed : e.isNamed "embed" = true
      · rw [if_pos hnamed]
        exact hembed
      · rw [if_neg hnamed]
        by_cases hobject : (e.isNamed "object" && !e.selfClosed) = true
        · rw [if_pos hobject]
          exact hrefl
        · rw [if_neg hobject]
          exact hrefl
  · rw [if_neg hprotected]
    exact hrefl

/-- The verdict on an element does not change the kind of its tag. -/
theorem sameTag_judge (hf : f.policy.HasLocalListeners) (g : ObjectGuard) (e : Element)
    (parent? : Option String) (neverClosed : Bool) :
    e.SameTag (f.judge g e parent? neverClosed).element :=
  (sameTag_decide hf e parent? neverClosed).trans (sameTag_protect f g _ _)

/-- The verdict on the opener of a conditional comment is the decision on it. -/
theorem judge_conditional (hf : f.policy.HasLocalListeners) (g : ObjectGuard) {e : Element}
    (hcondition : e.isConditional = true) (hname : e.name.toList.head? = some '<')
    (parent? : Option String) (neverClosed : Bool) :
    f.judge g e parent? neverClosed =
      ⟨(f.decide e none false).1, (f.decide e none false).2, none, g⟩ := by
  have hdecide : f.decide e parent? neverClosed = f.decide e none false := by
    have h := sameTag_decideElement (hf.ruleFor? e) e
    have hconditional : (decideElement (f.policy.ruleFor? e) e).2.isConditional = true := by
      rw [Element.isConditional, h.condition]
      exact hcondition
    simp only [decide, hconditional, if_true]
  have htag := sameTag_decide hf e none false
  have hnamed : ∀ name : String, (name.toList.map Char.toLower).head? ≠ some '<' →
      (f.decide e none false).2.isNamed name = false := by
    intro name hne
    rw [Element.isNamed, htag.name, AsciiCase.same, beq_eq_false_iff_ne]
    intro heq
    have := congrArg (fun s : String => s.toList.head?) heq
    simp only [AsciiCase.toList_lower, List.head?_map, hname, Option.map_some] at this hne
    exact hne this.symm
  have hprotect : f.protect g (f.decide e none false).2 (f.decide e none false).1 =
      (none, g, (f.decide e none false).2) := by
    unfold protect
    rw [hnamed "param" (by decide), hnamed "embed" (by decide), hnamed "object" (by decide)]
    split <;> rfl
  simp only [judge, hdecide, hprotect]

/-! ### What a verdict does to the guard -/

/-- The verdict opens a frame for the element, or leaves the open frames as they are. -/
theorem judge_frames (f : Filter) (g : ObjectGuard) (e : Element) (parent? : Option String)
    (neverClosed : Bool) :
    let v := f.judge g e parent? neverClosed
    (v.objectKey? = none ∧ v.guard.openKeys = g.openKeys ∧ v.guard.nextKey = g.nextKey) ∨
      (v.objectKey? = some g.nextKey ∧ v.guard = g.open.2) := by
  have hparam : ∀ x : Element, (g.param f.settings.urlAllowList x).1.openKeys = g.openKeys ∧
      (g.param f.settings.urlAllowList x).1.nextKey = g.nextKey := by
    intro x
    have hurl : ∀ name value?, (g.recordUrl f.settings.urlAllowList name value?).openKeys =
        g.openKeys ∧ (g.recordUrl f.settings.urlAllowList name value?).nextKey = g.nextKey := by
      intro name value?
      unfold ObjectGuard.recordUrl
      split <;> exact ⟨rfl, rfl⟩
    unfold ObjectGuard.param
    split
    · exact ⟨rfl, rfl⟩
    · dsimp only
      split
      · exact hurl _ _
      · exact hurl _ _
  simp only [judge, protect]
  split
  · split
    · exact .inl ⟨rfl, hparam _⟩
    · split
      · exact .inl ⟨rfl, rfl, rfl⟩
      · split
        · exact .inr ⟨rfl, rfl⟩
        · exact .inl ⟨rfl, rfl, rfl⟩
  · exact .inl ⟨rfl, rfl, rfl⟩

theorem close_guard (g : ObjectGuard) (key : Nat) (inject : Bool) :
    (g.close key inject).2 = { g with openKeys := g.openKeys.erase key } := by
  unfold ObjectGuard.close
  split
  · rfl
  · next h =>
    rw [List.erase_of_not_mem (by simpa using h)]

end Filter

end MarkupFilter
