import MarkupFilter.Proofs.Filter.Walking

/-!
# When it does not matter which objects are open

If the rules ask neither for end tags nor for particular parents, and no address may use the network
freely, then a walk does not depend on where it takes place: not on the element around, and not on
which of the objects are still open.

## Main definitions

* `Policy.IgnoresPlace`, `Filter.DeniesNetwork` — what the rules and the settings must not ask for.
* `ObjectGuard.Alike` — two guards that differ in their open objects at most.
* `ObjectGuard.Extends` — a guard that has the same objects open as an earlier one, and new ones.

## Main results

* `Filter.walk_extends` — a walk leaves the objects open that were open before.
* `Filter.walk_alike` — walks that start alike end alike, whatever element they stand in.
-/

set_option autoImplicit false

namespace MarkupFilter

/-! ## Rules and settings -/

/-- No rule of an element asks for its end tag or for what may stand inside. -/
def Policy.IgnoresPlace (p : Policy) : Prop :=
  ∀ name rule, p.elementRule? name = some rule → rule.requiresEndTag = false ∧ rule.children = []

/-- No address may use the network freely, or plugin content is not looked at. -/
def Filter.DeniesNetwork (f : Filter) : Prop :=
  f.settings.protectObjects = false ∨ ∀ url, f.settings.urlAllowList.allows url = false

namespace ObjectGuard

/-! ## Guards -/

/-- The guards have seen as many objects and the same parameters. -/
structure Alike (g g' : ObjectGuard) : Prop where
  nextKey : g'.nextKey = g.nextKey
  given : g'.given = g.given
  address : g'.address? = g.address?

theorem Alike.refl (g : ObjectGuard) : g.Alike g :=
  ⟨rfl, rfl, rfl⟩

theorem Alike.symm {g g' : ObjectGuard} (h : g.Alike g') : g'.Alike g :=
  ⟨h.nextKey.symm, h.given.symm, h.address.symm⟩

theorem Alike.trans {g g' g'' : ObjectGuard} (h : g.Alike g') (h' : g'.Alike g'') : g.Alike g'' :=
  ⟨h'.nextKey.trans h.nextKey, h'.given.trans h.given, h'.address.trans h.address⟩

/-- No address so far may use the network freely. -/
def Internal (g : ObjectGuard) : Prop :=
  ∀ networking opened, g.address? = some (networking, opened) → networking = .internal

theorem internal_empty : Internal {} :=
  fun _ _ h => nomatch h

theorem Internal.alike {g g' : ObjectGuard} (h : g.Internal) (ha : g.Alike g') : g'.Internal := by
  intro networking opened heq
  rw [ha.address] at heq
  exact h networking opened heq

theorem Internal.networkingIn {g : ObjectGuard} (h : g.Internal) (key : Nat) :
    g.networkingIn key = .internal := by
  unfold ObjectGuard.networkingIn
  split
  · next networking opened heq =>
    split
    · exact h networking opened heq
    · rfl
  · rfl

theorem Internal.networking {g : ObjectGuard} (h : g.Internal) : g.networking = .internal := by
  unfold ObjectGuard.networking
  split
  · exact h.networkingIn _
  · rfl

/-- The frame of an object does not depend on which others are open. -/
theorem Alike.frame {g g' : ObjectGuard} (h : g.Alike g') (key : Nat) :
    g'.frame key = g.frame key := by
  have hgives : g'.gives key = g.gives key := funext fun s => by
    rw [gives, gives, h.given]
  rw [ObjectGuard.frame, ObjectGuard.frame, hgives, ObjectGuard.networkingIn,
    ObjectGuard.networkingIn, h.address]

theorem alike_close (g : ObjectGuard) (key : Nat) (inject : Bool) :
    g.Alike (g.close key inject).2 := by
  rw [Filter.close_guard]
  exact ⟨rfl, rfl, rfl⟩

theorem Alike.close_params {g g' : ObjectGuard} (h : g.Alike g') {key : Nat}
    (hkey : key ∈ g.openKeys) (hkey' : key ∈ g'.openKeys) :
    (g'.close key true).1 = (g.close key true).1 := by
  unfold ObjectGuard.close
  rw [if_pos (List.contains_iff_mem.2 hkey'), if_pos (List.contains_iff_mem.2 hkey)]
  simp only [if_true, h.frame]

theorem Alike.open {g g' : ObjectGuard} (h : g.Alike g') :
    g'.open.1 = g.open.1 ∧ g.open.2.Alike g'.open.2 :=
  ⟨h.nextKey, congrArg (· + 1) h.nextKey, h.given, h.address⟩

/-- The same objects are open as before, and perhaps some that were opened since. -/
structure Extends (g g' : ObjectGuard) : Prop where
  nextKey : g.nextKey ≤ g'.nextKey
  openKeys : ∀ key, key < g.nextKey → (key ∈ g'.openKeys ↔ key ∈ g.openKeys)

theorem Extends.refl (g : ObjectGuard) : g.Extends g :=
  ⟨Nat.le_refl _, fun _ _ => Iff.rfl⟩

theorem Extends.trans {g g' g'' : ObjectGuard} (h : g.Extends g') (h' : g'.Extends g'') :
    g.Extends g'' :=
  ⟨Nat.le_trans h.nextKey h'.nextKey, fun key hkey =>
    (h'.openKeys key (Nat.lt_of_lt_of_le hkey h.nextKey)).trans (h.openKeys key hkey)⟩

/-- Closing an object opened since leaves those from before. -/
theorem Extends.close {g g' : ObjectGuard} (h : g.Extends g') {key : Nat} (hkey : g.nextKey ≤ key)
    (inject : Bool) : g.Extends (g'.close key inject).2 := by
  rw [Filter.close_guard]
  refine ⟨h.nextKey, fun k hk => ?_⟩
  rw [← h.openKeys k hk]
  exact List.mem_erase_of_ne (by omega)

end ObjectGuard

namespace Filter

variable {f : Filter}

theorem extends_judge (f : Filter) (g : ObjectGuard) (e : Element) (parent? : Option String)
    (neverClosed : Bool) :
    g.Extends (f.judge g e parent? neverClosed).guard ∧
      ∀ key, (f.judge g e parent? neverClosed).objectKey? = some key →
        g.nextKey ≤ key ∧ key < (f.judge g e parent? neverClosed).guard.nextKey ∧
          key ∈ (f.judge g e parent? neverClosed).guard.openKeys := by
  rcases f.judge_frames g e parent? neverClosed with ⟨hkey, hopen, hnext⟩ | ⟨hkey, hguard⟩
  · refine ⟨⟨Nat.le_of_eq hnext.symm, fun key _ => by rw [hopen]⟩, fun key h => ?_⟩
    rw [hkey] at h
    cases h
  · rw [hguard, hkey]
    refine ⟨⟨Nat.le_succ _, fun key hlt => ?_⟩, fun key h => ?_⟩
    · simp only [ObjectGuard.open, List.mem_cons]
      exact ⟨fun h => h.resolve_left (Nat.ne_of_lt hlt), .inr⟩
    · cases h
      exact ⟨Nat.le_refl _, Nat.lt_succ_self _, List.mem_cons_self ..⟩

/-- The end of an element leaves the objects open that were open before the element. -/
theorem extends_closeElement (f : Filter) {g : ObjectGuard} (v : Verdict) {p : Progress}
    (h : g.Extends p.guard) (hkey : ∀ key, v.objectKey? = some key → g.nextKey ≤ key) :
    g.Extends (f.closeElement v p).guard := by
  unfold closeElement
  split
  · next key _ hsome => exact h.close (hkey key hsome) true
  · exact h
  · next key _ hsome => exact h.close (hkey key hsome) false
  · exact h

/-- **A walk leaves the objects open that were open before.** The induction is on the number of
nodes. -/
theorem walk_extends (f : Filter) (parent? : Option String) (p : Progress)
    (nodes : List Outlined) : p.guard.Extends (f.walk parent? p nodes).guard := by
  induction hn : nodes.length using Nat.strongRecOn generalizing nodes parent? p with
  | _ n ih =>
    cases nodes with
    | nil =>
      rw [walk_nil]
      exact .refl _
    | cons o os =>
      have hinside : (os.take o.extent).length < n := by
        rw [← hn, List.length_take, List.length_cons]
        omega
      have hafter : (os.drop o.extent).length < n := by
        rw [← hn, List.length_drop, List.length_cons]
        omega
      rw [walk_cons]
      refine ObjectGuard.Extends.trans ?_ (ih _ hafter parent? _ _ rfl)
      by_cases hcontent : ∃ e, o.content = .element e
      · obtain ⟨e, he⟩ := hcontent
        rw [he, visit_element]
        obtain ⟨hjudge, hkey⟩ := f.extends_judge p.guard e parent? e.isNeverClosed
        refine f.extends_closeElement _ (hjudge.trans ?_) fun key h => (hkey key h).1
        exact ih _ hinside _ (f.startProgress p (f.judge p.guard e parent? e.isNeverClosed)) _ rfl
      · have hguard : ∀ c : Content, (∀ e, c ≠ .element e) →
            (f.visit parent? p c (os.take o.extent)).guard = p.guard := by
          intro c hc
          match c, hc with
          | .fragment, _ => rw [visit, node]
          | .text raw, _ => rw [visit, node]; rfl
          | .stray raw (.endTag name), _ => rw [visit, node]; rfl
          | .stray raw .conditional, _ => rw [visit, node]; rfl
          | .comment body, _ => rw [visit, node]; rfl
          | .element e, hc => exact absurd rfl (hc e)
        rw [hguard o.content fun e he => hcontent ⟨e, he⟩]
        exact .refl _

/-! ## Places that do not matter -/

/-- The decision on an element does not depend on where it stands. -/
theorem decide_place (hp : f.policy.IgnoresPlace) (e : Element) (parent? : Option String)
    (neverClosed : Bool) : f.decide e parent? neverClosed = f.decide e none false := by
  have hplace : ∀ d x, f.placeDecision (f.policy.ruleFor? e) d x parent? neverClosed =
      f.placeDecision (f.policy.ruleFor? e) d x none false := by
    intro d x
    have hend : ∀ b : Bool,
        (b && (f.policy.ruleFor? e).any (·.requiresEndTag)) = false := by
      intro b
      cases hrule : f.policy.ruleFor? e with
      | none => simp
      | some rule => simp [(hp _ rule hrule).1]
    unfold placeDecision
    rw [hend, hend]
    split
    · simp only [Bool.false_eq_true, if_false, Option.bind_none]
      cases hparent : parent?.bind f.policy.elementRule? with
      | none => rfl
      | some rule =>
        obtain ⟨name, -, hrule⟩ := Option.bind_eq_some_iff.1 hparent
        simp [ElementRule.allowsChild, (hp name rule hrule).2]
    · rfl
  unfold decide
  simp only [hplace]

/-- Nor does the verdict on it. -/
theorem judge_place (hp : f.policy.IgnoresPlace) (g : ObjectGuard) (e : Element)
    (parent? : Option String) (neverClosed : Bool) :
    f.judge g e parent? neverClosed = f.judge g e none false := by
  simp only [judge, decide_place hp e parent? neverClosed]

/-- An address that may not use the network leaves a guard without one that may. -/
theorem internal_recordUrl {g : ObjectGuard} (hi : g.Internal)
    (hf : ∀ url, f.settings.urlAllowList.allows url = false) (name : String)
    (value? : Option String) : (g.recordUrl f.settings.urlAllowList name value?).Internal := by
  unfold ObjectGuard.recordUrl
  split
  · rintro networking opened heq
    cases heq
    simp [ObjectGuard.networkingOf, hf]
  · exact hi

/-- Parameters are recorded alike in guards that are alike. -/
theorem param_alike {g g' : ObjectGuard} (h : g.Alike g') (hi : g.Internal)
    (hf : ∀ url, f.settings.urlAllowList.allows url = false) (e : Element) :
    (g.param f.settings.urlAllowList e).1.Alike (g'.param f.settings.urlAllowList e).1 ∧
      (g'.param f.settings.urlAllowList e).2 = (g.param f.settings.urlAllowList e).2 ∧
      (g.param f.settings.urlAllowList e).1.Internal := by
  have hurl : ∀ name value?,
      (g.recordUrl f.settings.urlAllowList name value?).Alike
        (g'.recordUrl f.settings.urlAllowList name value?) := by
    intro name value?
    unfold ObjectGuard.recordUrl
    split
    · exact ⟨h.nextKey, h.given, by rw [h.nextKey]⟩
    · exact h
  unfold ObjectGuard.param
  cases e.attributes.value? "name" with
  | none => exact ⟨h, rfl, hi⟩
  | some name =>
    have halike := hurl name (e.attributes.value? "value")
    have hinternal := internal_recordUrl hi hf name (e.attributes.value? "value")
    dsimp only
    cases SafetySetting.ofName? name with
    | none => exact ⟨halike, rfl, hinternal⟩
    | some s =>
      generalize g.recordUrl f.settings.urlAllowList name (e.attributes.value? "value") = k
        at halike hinternal
      generalize g'.recordUrl f.settings.urlAllowList name (e.attributes.value? "value") = k'
        at halike
      have hk : (k.recordSetting s).Alike (k'.recordSetting s) :=
        ⟨halike.nextKey, by simp only [ObjectGuard.recordSetting, halike.given, halike.nextKey],
          halike.address⟩
      have hki : (k.recordSetting s).Internal := hinternal
      refine ⟨hk, ?_, hki⟩
      dsimp only
      rw [hki.networking, (hki.alike hk).networking]

/-- Verdicts with guards that are alike are the same, and leave guards that are alike. -/
structure Verdict.Alike (v v' : Verdict) : Prop where
  decision : v'.decision = v.decision
  element : v'.element = v.element
  objectKey? : v'.objectKey? = v.objectKey?
  guard : v.guard.Alike v'.guard

theorem judge_alike (hp : f.policy.IgnoresPlace) (hf : f.DeniesNetwork) {g g' : ObjectGuard}
    (h : g.Alike g') (hi : g.Internal) (e : Element) (parent? parent?' : Option String)
    (neverClosed neverClosed' : Bool) :
    (f.judge g e parent? neverClosed).Alike (f.judge g' e parent?' neverClosed') ∧
      (f.judge g e parent? neverClosed).guard.Internal := by
  have hprotect : ∀ x d, (f.protect g' x d).1 = (f.protect g x d).1 ∧
      (f.protect g x d).2.1.Alike (f.protect g' x d).2.1 ∧
      (f.protect g' x d).2.2 = (f.protect g x d).2.2 ∧ (f.protect g x d).2.1.Internal := by
    intro x d
    unfold protect
    by_cases hprotected : (f.settings.protectObjects && d == .allowed) = true
    · have hallow : ∀ url, f.settings.urlAllowList.allows url = false := by
        rcases hf with hoff | hallow
        · simp [hoff] at hprotected
        · exact hallow
      rw [if_pos hprotected, if_pos hprotected]
      by_cases hparam : x.isNamed "param" = true
      · rw [if_pos hparam, if_pos hparam]
        obtain ⟨halike, helement, hinternal⟩ := param_alike h hi hallow x
        exact ⟨rfl, halike, helement, hinternal⟩
      · rw [if_neg hparam, if_neg hparam]
        by_cases hembed : x.isNamed "embed" = true
        · rw [if_pos hembed, if_pos hembed]
          exact ⟨rfl, h, rfl, hi⟩
        · rw [if_neg hembed, if_neg hembed]
          by_cases hobject : (x.isNamed "object" && !x.selfClosed) = true
          · rw [if_pos hobject, if_pos hobject]
            exact ⟨congrArg some h.open.1, h.open.2, rfl, hi⟩
          · rw [if_neg hobject, if_neg hobject]
            exact ⟨rfl, h, rfl, hi⟩
    · rw [if_neg hprotected, if_neg hprotected]
      exact ⟨rfl, h, rfl, hi⟩
  obtain ⟨hkey, hguard, helement, hinternal⟩ :=
    hprotect (f.decide e none false).2 (f.decide e none false).1
  have hv : ∀ k par nc, f.judge k e par nc = ⟨(f.decide e none false).1,
      (f.protect k (f.decide e none false).2 (f.decide e none false).1).2.2,
      (f.protect k (f.decide e none false).2 (f.decide e none false).1).1,
      (f.protect k (f.decide e none false).2 (f.decide e none false).1).2.1⟩ := by
    intro k par nc
    simp only [judge, decide_place hp e par nc]
  rw [hv, hv]
  exact ⟨⟨rfl, helement, hkey, hguard⟩, hinternal⟩

/-- The texts are the same, and the guards are alike. -/
structure Progress.Alike (p q : Progress) : Prop where
  text : q.text = p.text
  guard : p.guard.Alike q.guard

theorem Progress.Alike.refl (p : Progress) : p.Alike p :=
  ⟨rfl, .refl _⟩

theorem Progress.Alike.symm {p q : Progress} (h : p.Alike q) : q.Alike p :=
  ⟨h.text.symm, h.guard.symm⟩

theorem Progress.Alike.trans {p q r : Progress} (h : p.Alike q) (h' : q.Alike r) : p.Alike r :=
  ⟨h'.text.trans h.text, h.guard.trans h'.guard⟩

theorem startProgress_alike {p q : Progress} (h : p.Alike q) {v v' : Verdict} (hv : v.Alike v') :
    (f.startProgress p v).Alike (f.startProgress q v') := by
  refine ⟨?_, hv.guard⟩
  simp only [startProgress, Progress.write, h.text, hv.element, hv.decision]

/-- End tags in their place are alike if the object is open in both guards. -/
theorem endProgress_alike {p q : Progress} (h : p.Alike q) (x : OpenedElement)
    (hkey : ∀ key, x.objectKey? = some key → key ∈ p.guard.openKeys ∧ key ∈ q.guard.openKeys) :
    (f.endProgress p x).Alike (f.endProgress q x) := by
  unfold endProgress endObject
  cases hx : x.objectKey? with
  | none => exact ⟨by simp only [Progress.write, h.text], h.guard⟩
  | some key =>
    obtain ⟨hp, hq⟩ := hkey key hx
    refine ⟨?_, ?_⟩
    · simp only [Progress.write, h.text, h.guard.close_params hp hq]
    · exact ((ObjectGuard.alike_close _ _ _).symm.trans h.guard).trans
        (ObjectGuard.alike_close _ _ _)

/-- An end tag that is not in its place only closes the object. -/
theorem closeElement_alike (f : Filter) (v : Verdict) (p : Progress)
    (h : v.element.ending ≠ .closed) : p.Alike (f.closeElement v p) := by
  refine ⟨f.text_closeElement v p h, ?_⟩
  unfold closeElement
  split
  · contradiction
  · contradiction
  · exact ObjectGuard.alike_close _ _ _
  · exact .refl _

theorem opened_alike {v v' : Verdict} (h : v.Alike v') : v'.opened = v.opened := by
  rw [Verdict.opened, Verdict.opened, h.element, h.decision, h.objectKey?]

/-- A progress that is alike, and in which no address may use the network freely. -/
def SameInternal (p q : Progress) : Prop :=
  p.Alike q ∧ p.guard.Internal

/-- Nodes are visited alike if walks through what is inside them are alike.

The verdicts on an element are the same in both visits. If its end tag is in its place, the frame of
an object is still open in both of them, since a walk leaves open what was open before; so the same
parameters are written. -/
theorem visit_alike (hp : f.policy.IgnoresPlace) (hf : f.DeniesNetwork)
    (parent? parent?' : Option String) {p q : Progress} (h : SameInternal p q)
    {inside inside' : List Outlined}
    (hin : ∀ (parent? parent?' : Option String) {p q : Progress}, SameInternal p q →
      SameInternal (f.walk parent? p inside) (f.walk parent?' q inside')) (c : Content) :
    SameInternal (f.visit parent? p c inside) (f.visit parent?' q c inside') := by
  obtain ⟨h, hi⟩ := h
  match c with
  | .fragment => rw [visit, visit, node, node]; exact ⟨h, hi⟩
  | .text raw =>
    rw [visit, visit, node, node]
    exact ⟨⟨by simp only [Progress.write, h.text], h.guard⟩, hi⟩
  | .stray raw (.endTag name) =>
    rw [visit, visit, node, node]
    exact ⟨⟨by simp only [Progress.write, h.text], h.guard⟩, hi⟩
  | .stray raw .conditional =>
    rw [visit, visit, node, node]
    exact ⟨⟨by simp only [Progress.write, h.text], h.guard⟩, hi⟩
  | .comment body =>
    rw [visit, visit, node, node]
    exact ⟨⟨by simp only [Progress.write, h.text], h.guard⟩, hi⟩
  | .element e =>
    rw [visit_element, visit_element]
    dsimp only
    obtain ⟨hv, hvi⟩ := judge_alike hp hf h.guard hi e parent? parent?' e.isNeverClosed
      e.isNeverClosed
    have hkeys := (f.extends_judge p.guard e parent? e.isNeverClosed).2
    have hkeys' := (f.extends_judge q.guard e parent?' e.isNeverClosed).2
    generalize f.judge p.guard e parent? e.isNeverClosed = v at hv hvi hkeys
    generalize f.judge q.guard e parent?' e.isNeverClosed = v' at hv hkeys'
    obtain ⟨hwalk, hwalki⟩ := hin (some v.element.name) (some v'.element.name)
      ⟨startProgress_alike h hv, hvi⟩
    by_cases hclosed : v.element.ending = .closed
    · have hclosed' : v'.element.ending = .closed := by rw [hv.element, hclosed]
      rw [closeElement_closed f v _ hclosed, closeElement_closed f v' _ hclosed',
        opened_alike hv]
      refine ⟨endProgress_alike hwalk v.opened fun key hkey => ?_, ?_⟩
      · obtain ⟨-, hlt, hmem⟩ := hkeys key hkey
        obtain ⟨-, hlt', hmem'⟩ := hkeys' key (hv.objectKey?.trans hkey)
        exact ⟨((f.walk_extends _ (f.startProgress p v) _).openKeys key hlt).2 hmem,
          ((f.walk_extends _ (f.startProgress q v') _).openKeys key hlt').2 hmem'⟩
      · unfold endProgress endObject
        cases v.opened.objectKey? with
        | none => exact hwalki
        | some key => exact hwalki.alike (ObjectGuard.alike_close _ _ _)
    · have hclosed' : v'.element.ending ≠ .closed := by rwa [hv.element]
      have halike := f.closeElement_alike v
        (f.walk (some v.element.name) (f.startProgress p v) inside) hclosed
      exact ⟨(halike.symm.trans hwalk).trans (f.closeElement_alike v' _ hclosed'),
        hwalki.alike halike.guard⟩

/-- **Walks that start alike end alike**, whatever elements they stand in. The induction is on the
number of nodes. -/
theorem walk_alike (hp : f.policy.IgnoresPlace) (hf : f.DeniesNetwork) (nodes : List Outlined)
    (parent? parent?' : Option String) {p q : Progress} (h : SameInternal p q) :
    SameInternal (f.walk parent? p nodes) (f.walk parent?' q nodes) := by
  induction hn : nodes.length using Nat.strongRecOn generalizing nodes parent? parent?' p q with
  | _ n ih =>
    cases nodes with
    | nil =>
      rw [walk_nil, walk_nil]
      exact h
    | cons o os =>
      have hinside : (os.take o.extent).length < n := by
        rw [← hn, List.length_take, List.length_cons]
        omega
      have hafter : (os.drop o.extent).length < n := by
        rw [← hn, List.length_drop, List.length_cons]
        omega
      rw [walk_cons, walk_cons]
      refine ih _ hafter _ parent? parent?' ?_ rfl
      exact visit_alike hp hf parent? parent?' h (fun par par' _ _ h => ih _ hinside _ par par' h rfl)
        o.content

end Filter

end MarkupFilter
