import MarkupFilter.Proofs.Filter.OpenObjects

/-!
# What parameters give

Along a row of events, the guard remembers of each setting when it was given last, and what the last
address was. So what an object was given by its end, and how far it may use the network, can be read
off the events since it was opened.

## Main definitions

* `Element.setting?`, `Element.address?` — what an element gives as a parameter.
* `Event.lastAddress` — the last address that is given in a row of events.
* `Filter.TakesParams` — the filter allows objects, and parameters with their names.
* `Scene.Dated` — the guard has noted things no later than now.

## Main results

* `Filter.takesParams_of_baseline` — filters with the baseline policy do.
* `Filter.act_given`, `Filter.given_after` — what the guard remembers of settings.
* `Filter.address_after` — what the guard remembers of addresses.
* `Filter.enter_object` — the start of an object.
* `Filter.gives_after`, `Filter.exists_lastAddress` — what an object was given.
-/

set_option autoImplicit false

namespace MarkupFilter

open Event

/-! ## What an element gives -/

/-- The address that a parameter with these attributes gives. -/
def ObjectGuard.addressOf? (as : Attributes) : Option String :=
  (as.value? "name").bind fun name => if namesUrl name then as.value? "value" else none

namespace Element

/-- The setting that the element names, if it is a parameter. -/
def setting? (e : Element) : Option SafetySetting :=
  if e.isNamed "param" then Filter.settingOf? e.attributes else none

/-- The address that the element gives, if it is a parameter that gives one. -/
def address? (e : Element) : Option String :=
  if e.isNamed "param" then ObjectGuard.addressOf? e.attributes else none

/-- A parameter that names a setting gives no address. -/
theorem address?_of_setting? {e : Element} {t : SafetySetting} (h : e.setting? = some t) :
    e.address? = none := by
  have hurl : ∀ name, SafetySetting.ofName? name = some t → ObjectGuard.namesUrl name = false := by
    intro name hname
    have hlower : AsciiCase.lower t.name = AsciiCase.lower name := by
      unfold SafetySetting.ofName? at hname
      have hsame := List.find?_some hname
      exact (AsciiCase.same_iff ..).1 hsame
    simp only [ObjectGuard.namesUrl, AsciiCase.same, ← hlower]
    cases t <;> decide
  rw [setting?] at h
  rw [address?]
  split at h
  · next hparam =>
    obtain ⟨name, hvalue, hname⟩ := Option.bind_eq_some_iff.1 h
    rw [if_pos hparam, ObjectGuard.addressOf?, hvalue, Option.bind_some, hurl name hname]
    rfl
  · cases h

end Element

namespace Event

/-- The setting that an event names. -/
def setting? : Event → Option SafetySetting
  | .node (.element e) => e.setting?
  | _ => none

/-- The address that an event gives. -/
def address? : Event → Option String
  | .node (.element e) => e.address?
  | _ => none

/-- The last address that is given in a row of events. -/
def lastAddress (xs : List Event) : Option String :=
  (xs.filterMap address?).getLast?

@[simp] theorem lastAddress_nil : lastAddress [] = none := rfl

theorem lastAddress_cons (x : Event) (xs : List Event) :
    lastAddress (x :: xs) = (lastAddress xs).or x.address? := by
  rw [lastAddress, lastAddress, List.filterMap_cons]
  cases x.address? with
  | none => exact (Option.or_none).symm
  | some url =>
    rw [List.getLast?_cons]
    cases (List.filterMap address? xs).getLast? <;> rfl

theorem lastAddress_append_singleton (xs : List Event) (x : Event) :
    lastAddress (xs ++ [x]) = x.address?.or (lastAddress xs) := by
  rw [lastAddress, lastAddress, List.filterMap_append, List.getLast?_append]
  cases hx : x.address? <;> simp [hx]

end Event

/-- An element that has the name of a tag is not the opener of a conditional comment. -/
theorem Content.WellRead.condition {e : Element} (h : (Content.element e).WellRead) {name : String}
    (hname : e.isNamed name = true) (hhead : (AsciiCase.lower name).toList.head? ≠ some '<') :
    e.condition = none := by
  rcases h with ⟨hc, -⟩ | ⟨condition, -, hopener, -⟩
  · exact hc
  · rw [← (AsciiCase.same_iff ..).1 hname, AsciiCase.toList_lower, List.head?_map, hopener] at hhead
    exact absurd rfl hhead

namespace Filter

variable {f : Filter}

/-! ## Filters that take parameters -/

/-- The filter protects objects and writes its output so that it is read as it is meant; it has no
listeners but the one on links and does not look at places; and it allows objects, and parameters
with any name. -/
structure TakesParams (f : Filter) : Prop where
  protect : f.settings.protectObjects = true
  blocking : f.settings.blockingPrefix = none
  escape : f.settings.escapeCommentMarkup = true
  links : f.policy.ProtectsLinksOnly
  place : f.policy.IgnoresPlace
  object : (f.policy.elementRule? "object").any (fun r => !r.disabled && !r.removesTag) = true
  param : (f.policy.elementRule? "param").any (fun r => !r.disabled && !r.removesTag &&
    r.listeners.isEmpty && r.allowsAttribute "name") = true
  name : (f.policy.attributeRule? "name").any (fun r => !r.disabled && r.allowed.isEmpty &&
    r.denied.isEmpty) = true

/-- The baseline policy allows objects, and parameters with any name. -/
theorem takesParams_of_baseline (hpolicy : f.policy = .baseline)
    (hprotect : f.settings.protectObjects = true) (hblocking : f.settings.blockingPrefix = none)
    (hescape : f.settings.escapeCommentMarkup = true) : f.TakesParams := by
  have hrules : (Policy.baseline.elementRule? "object").any
        (fun r => !r.disabled && !r.removesTag) = true ∧
      (Policy.baseline.elementRule? "param").any (fun r => !r.disabled && !r.removesTag &&
        r.listeners.isEmpty && r.allowsAttribute "name") = true ∧
      (Policy.baseline.attributeRule? "name").any (fun r => !r.disabled && r.allowed.isEmpty &&
        r.denied.isEmpty) = true := by
    rw [Policy.baseline_eq]
    decide +kernel
  rw [← hpolicy] at hrules
  refine ⟨hprotect, hblocking, hescape, ?_, ?_, hrules.1, hrules.2.1, hrules.2.2⟩ <;> rw [hpolicy]
  · exact Policy.baseline_protectsLinksOnly
  · exact Policy.baseline_ignoresPlace

/-- The rule of an element is that of its name in small letters. -/
theorem elementRule?_of_isNamed {e : Element} {name : String} (h : e.isNamed name = true) :
    f.policy.elementRule? e.name = f.policy.elementRule? name := by
  rw [Policy.elementRule?, Policy.elementRule?, RuleTable.find?, RuleTable.find?,
    (AsciiCase.same_iff ..).1 h]

namespace TakesParams

theorem hasLocalListeners (hf : f.TakesParams) : f.policy.HasLocalListeners :=
  hf.links.hasLocalListeners

/-- An element whose rule has no flag against it is allowed. -/
theorem decide_of_flags (hf : f.TakesParams) {e : Element} (hc : e.condition = none)
    {rule : ElementRule} (hrule : f.policy.elementRule? e.name = some rule)
    (hdisabled : rule.disabled = false) (hremoves : rule.removesTag = false) :
    f.decide e none false = (.allowed, f.listed rule e) := by
  refine decide_of_rule hf.hasLocalListeners hf.place hc hrule ?_ none false
  simp [decideEndTag, hdisabled, hremoves]

/-- Objects are allowed. -/
theorem decide_object (hf : f.TakesParams) {e : Element} (hc : e.condition = none)
    (hname : e.isNamed "object" = true) :
    ∃ rule, f.decide e none false = (.allowed, f.listed rule e) := by
  obtain ⟨rule, hrule, hflags⟩ := (Option.any_eq_true ..).1 hf.object
  simp only [Bool.and_eq_true, Bool.not_eq_true'] at hflags
  rw [← elementRule?_of_isNamed hname] at hrule
  exact ⟨rule, hf.decide_of_flags hc hrule hflags.1 hflags.2⟩

/-- Parameters are allowed. Their attributes keep their values, and names are enabled. -/
theorem decide_param (hf : f.TakesParams) {e : Element} (hc : e.condition = none)
    (hname : e.isNamed "param" = true) :
    ∃ (enables : Attribute → Bool) (x : Element), f.decide e none false = (.allowed, x) ∧
      x.name = e.name ∧ x.attributes = e.attributes.map (fun a => a.setEnabled (enables a)) ∧
        ∀ a, a.key = "name" → enables a = true := by
  obtain ⟨rule, hrule, hflags⟩ := (Option.any_eq_true ..).1 hf.param
  simp only [Bool.and_eq_true, Bool.not_eq_true', List.isEmpty_iff] at hflags
  obtain ⟨⟨⟨hdisabled, hremoves⟩, hlisteners⟩, hlisted⟩ := hflags
  rw [← elementRule?_of_isNamed hname] at hrule
  have hdecide : ∀ a, f.decideListed (some rule) .allowed e.name a =
      a.setEnabled (f.decideListed (some rule) .allowed e.name a).enabled := by
    intro a
    obtain ⟨b, heq, -⟩ := decideListed_eq hf.links.attributes (some rule) .allowed e.name a
    rw [heq]
    rfl
  refine ⟨fun a => (f.decideListed (some rule) .allowed e.name a).enabled, _,
    hf.decide_of_flags hc hrule hdisabled hremoves, rfl, ?_, fun a hkey => ?_⟩
  · rw [listed, hlisteners]
    exact congrArg (fun g => e.attributes.map g) (funext hdecide)
  · obtain ⟨r, hr, hplain⟩ := (Option.any_eq_true ..).1 hf.name
    simp only [Bool.and_eq_true, Bool.not_eq_true', List.isEmpty_iff] at hplain
    obtain ⟨⟨hrdisabled, hrallowed⟩, hrdenied⟩ := hplain
    have hlower : AsciiCase.lower a.name = AsciiCase.lower "name" := by
      rw [← a.key_eq, hkey]
      decide
    have hallows : rule.allowsAttribute a.name = true := by
      rw [ElementRule.allowsAttribute, hlower]
      exact hlisted
    have hrule' : f.policy.attributeRule? a.name = some r := by
      rw [Policy.attributeRule?, RuleTable.find?, hlower]
      exact hr
    have haccepts : r.accepts e.name a.value = true := by
      simp [AttributeRule.accepts, AttributeRule.acceptsValue, hrdisabled, hrallowed, hrdenied]
    simp only [decideListed, Option.any_some, hallows, Bool.or_true, if_true, hrule',
      decideAttribute, hf.links.attributes _ _ hrule', haccepts]
    rfl

end TakesParams

/-! ## What an event gives -/

/-- Attributes keep their values when they are enabled or disabled. -/
theorem value?_setEnabled (as : Attributes) (enables : Attribute → Bool) (name : String) :
    (as.map fun a => a.setEnabled (enables a)).value? name = as.value? name := by
  rw [Attributes.value?, Attributes.value?, Attributes.get?_map fun a => a.key_setEnabled _]
  cases as.get? name <;> rfl

/-- The guard notes the address that a parameter gives. -/
theorem address?_param (urls : UrlAllowList) (g : ObjectGuard) (e : Element) :
    (g.param urls e).1.address? = ((ObjectGuard.addressOf? e.attributes).map fun url =>
      (ObjectGuard.networkingOf urls url, g.nextKey)).or g.address? := by
  unfold ObjectGuard.param ObjectGuard.addressOf?
  cases e.attributes.value? "name" with
  | none => rfl
  | some name =>
    have hurl : (g.recordUrl urls name (e.attributes.value? "value")).address? =
        ((if ObjectGuard.namesUrl name then e.attributes.value? "value" else none).map fun url =>
          (ObjectGuard.networkingOf urls url, g.nextKey)).or g.address? := by
      unfold ObjectGuard.recordUrl
      cases ObjectGuard.namesUrl name with
      | false => rfl
      | true => cases e.attributes.value? "value" <;> rfl
    rw [Option.bind_some, ← hurl]
    dsimp only
    cases SafetySetting.ofName? name <;> rfl

/-- An element that is no parameter gives no address. -/
theorem address?_protect (g : ObjectGuard) {e : Element} (hparam : e.isNamed "param" = false)
    (d : Decision) : (f.protect g e d).2.1.address? = g.address? := by
  unfold protect
  rw [hparam]
  split
  · rw [if_neg (by simp)]
    split
    · rfl
    · split <;> rfl
  · rfl

/-- The guard `g` becomes `g'` by an event that names the setting `setting?` and gives the address
`address?`. -/
structure Notes (f : Filter) (g : ObjectGuard) (setting? : Option SafetySetting)
    (address? : Option String) (g' : ObjectGuard) : Prop where
  nextKey : g.nextKey ≤ g'.nextKey
  given : ∀ t, g'.given.lookup t = if setting? = some t then some g.nextKey else g.given.lookup t
  address : g'.address? = (address?.map fun url =>
    (ObjectGuard.networkingOf f.settings.urlAllowList url, g.nextKey)).or g.address?

theorem Notes.unchanged (g : ObjectGuard) : Notes f g none none g :=
  ⟨Nat.le_refl _, fun _ => (if_neg (by simp)).symm, rfl⟩

/-- What is noted of an element. -/
theorem TakesParams.notes_judge (hf : f.TakesParams) (g : ObjectGuard) {e : Element}
    (hread : (Content.element e).WellRead) :
    Notes f g e.setting? e.address? (f.judge g e none false).guard := by
  by_cases hparam : e.isNamed "param" = true
  · have hc := hread.condition hparam (by decide)
    obtain ⟨enables, x, hdecide, hname, hattributes, -⟩ := hf.decide_param hc hparam
    have hnamed : x.isNamed "param" = true := by
      rw [Element.isNamed, hname]
      exact hparam
    have hvalue : ∀ name, x.attributes.value? name = e.attributes.value? name := fun name => by
      rw [hattributes, value?_setEnabled]
    have hguard : (f.judge g e none false).guard = (f.protect g x .allowed).2.1 := by
      simp only [judge, hdecide]
    have hguards := guards_protect f g x
    have hframe : f.opensFrame x = false := by
      have hobject : x.isNamed "object" = false := by
        rw [Element.isNamed_eq hnamed]
        decide
      rw [opensFrame, hobject, Bool.false_and, Bool.and_false]
    have hsetting : f.settingGiven? x = e.setting? := by
      rw [settingGiven?, hf.protect, hnamed, Element.setting?, if_pos hparam, settingOf?,
        settingOf?, hvalue]
      rfl
    rw [hguard]
    refine ⟨?_, fun t => ?_, ?_⟩
    · rw [hguards.nextKey, hframe]
      exact Nat.le_refl _
    · rw [hguards.lookup, hsetting]
    · rw [protect_param hf.protect g hnamed, address?_param, Element.address?, if_pos hparam,
        ObjectGuard.addressOf?, ObjectGuard.addressOf?, hvalue, hvalue]
  · rw [Bool.not_eq_true] at hparam
    have hname : (f.decide e none false).2.isNamed "param" = false := by
      rw [Element.isNamed, (sameTag_decide hf.hasLocalListeners e none false).name]
      exact hparam
    have haddress : (f.judge g e none false).guard.address? = g.address? :=
      address?_protect g hname _
    rw [Element.setting?, Element.address?, hparam, if_neg (by simp), if_neg (by simp)]
    by_cases hd : (f.judge g e none false).decision = .allowed
    · have hguards := guards_judge hd
      refine ⟨?_, fun t => ?_, haddress⟩
      · rw [hguards.nextKey]
        split <;> omega
      · have hsetting : f.settingGiven? (f.judge g e none false).element = none := by
          rw [settingGiven?, Element.isNamed,
            (sameTag_judge hf.hasLocalListeners g e none false).name]
          rw [Element.isNamed] at hparam
          rw [hparam, Bool.and_false]
          rfl
        rw [hguards.lookup, hsetting]
    · have hguard : (f.judge g e none false).guard = g := by
        have hdecision : (f.decide e none false).1 ≠ .allowed := hd
        simp only [judge, protect_of_not_allowed g _ hdecision]
      rw [hguard]
      exact .unchanged g

/-- What is noted of an event. -/
theorem TakesParams.notes_act (hf : f.TakesParams) (s : Scene) {x : Event}
    (hread : ∀ c, x = .node c → c.WellRead) :
    Notes f s.guard x.setting? x.address? (f.act s x).guard := by
  have hleave : ∀ number, Notes f s.guard none none (s.leave number).guard := by
    intro number
    rw [Scene.leave, endObject_guard]
    exact ⟨Nat.le_refl _, fun _ => (if_neg (by simp)).symm, rfl⟩
  cases x with
  | node c =>
    cases c with
    | element e => exact hf.notes_judge s.guard (hread _ rfl)
    | _ => exact .unchanged s.guard
  | ended number => exact hleave number
  | dropped number => exact hleave number

/-! ## What a row of events gives -/

/-- What a row of events does to the guard: it has noted a setting since it was `g` if an event
names it, and the last address, if one is given. -/
structure NotesAll (f : Filter) (g : ObjectGuard) (xs : List Event) (g' : ObjectGuard) : Prop where
  nextKey : g.nextKey ≤ g'.nextKey
  given : ∀ t, (∃ x ∈ xs, x.setting? = some t) →
    ∃ opened, g'.given.lookup t = some opened ∧ g.nextKey ≤ opened
  others : ∀ t, (∀ x ∈ xs, x.setting? ≠ some t) → g'.given.lookup t = g.given.lookup t
  address : ∀ url, lastAddress xs = some url → ∃ opened, g.nextKey ≤ opened ∧
    g'.address? = some (ObjectGuard.networkingOf f.settings.urlAllowList url, opened)
  noAddress : lastAddress xs = none → g'.address? = g.address?

theorem NotesAll.cons {g g' g'' : ObjectGuard} {x : Event} {xs : List Event}
    (h : Notes f g x.setting? x.address? g') (h' : NotesAll f g' xs g'') :
    NotesAll f g (x :: xs) g'' := by
  refine ⟨Nat.le_trans h.nextKey h'.nextKey, fun t hgiven => ?_, fun t hnone => ?_,
    fun url hlast => ?_, fun hlast => ?_⟩
  · by_cases hrest : ∃ y ∈ xs, y.setting? = some t
    · obtain ⟨opened, hlookup, hle⟩ := h'.given t hrest
      exact ⟨opened, hlookup, Nat.le_trans h.nextKey hle⟩
    · have hx : x.setting? = some t := by
        obtain ⟨y, hy, hsetting⟩ := hgiven
        rcases List.mem_cons.1 hy with rfl | hmem
        · exact hsetting
        · exact absurd ⟨y, hmem, hsetting⟩ hrest
      have hothers := h'.others t fun y hy hsetting => hrest ⟨y, hy, hsetting⟩
      exact ⟨g.nextKey, by rw [hothers, h.given, if_pos hx], Nat.le_refl _⟩
  · rw [h'.others t fun y hy => hnone y (List.mem_cons_of_mem _ hy), h.given,
      if_neg (hnone x (List.mem_cons_self ..))]
  · rw [lastAddress_cons] at hlast
    cases hrest : lastAddress xs with
    | some url' =>
      rw [hrest, Option.some_or] at hlast
      obtain ⟨opened, hle, haddress⟩ := h'.address url (hrest.trans hlast)
      exact ⟨opened, Nat.le_trans h.nextKey hle, haddress⟩
    | none =>
      rw [hrest, Option.none_or] at hlast
      refine ⟨g.nextKey, Nat.le_refl _, ?_⟩
      rw [h'.noAddress hrest, h.address, hlast]
      rfl
  · rw [lastAddress_cons, Option.or_eq_none_iff] at hlast
    rw [h'.noAddress hlast.1, h.address, hlast.2]
    rfl

/-- **What the guard has noted after a row of events.** -/
theorem TakesParams.notesAll_after (hf : f.TakesParams) (s : Scene) {xs : List Event}
    (hread : ∀ c ∈ contents xs, c.WellRead) : NotesAll f s.guard xs (f.after s xs).guard := by
  induction xs generalizing s with
  | nil => exact ⟨Nat.le_refl _, fun _ ⟨_, hx, _⟩ => absurd hx List.not_mem_nil, fun _ _ => rfl,
      (fun _ h => nomatch h), fun _ => rfl⟩
  | cons x xs ih =>
    refine .cons (hf.notes_act s fun c hc => ?_) (ih (f.act s x) fun c hc => ?_)
    · subst hc
      exact hread c (List.mem_cons_self ..)
    · refine hread c ?_
      cases x with
      | node c' => exact List.mem_cons_of_mem _ hc
      | _ => exact hc

end Filter

/-- The guard has noted things no later than now. -/
structure ObjectGuard.Dated (g : ObjectGuard) : Prop where
  given : ∀ t opened, g.given.lookup t = some opened → opened ≤ g.nextKey
  address : ∀ networking opened, g.address? = some (networking, opened) → opened ≤ g.nextKey

theorem ObjectGuard.dated_empty : ({} : ObjectGuard).Dated :=
  ⟨(fun _ _ h => nomatch h), fun _ _ h => nomatch h⟩

namespace Filter

variable {f : Filter}

theorem Notes.dated {g g' : ObjectGuard} {setting? : Option SafetySetting}
    {address? : Option String} (h : Notes f g setting? address? g') (hg : g.Dated) : g'.Dated := by
  refine ⟨fun t opened hlookup => ?_, fun networking opened haddress => ?_⟩
  · rw [h.given] at hlookup
    split at hlookup
    · exact Option.some.inj hlookup ▸ h.nextKey
    · exact Nat.le_trans (hg.given t opened hlookup) h.nextKey
  · rw [h.address] at haddress
    cases address? with
    | some url => exact (Prod.mk.inj (Option.some.inj haddress)).2 ▸ h.nextKey
    | none => exact Nat.le_trans (hg.address networking opened haddress) h.nextKey

theorem TakesParams.dated_after (hf : f.TakesParams) {s : Scene} (hs : s.guard.Dated)
    {xs : List Event} (hread : ∀ c ∈ contents xs, c.WellRead) : (f.after s xs).guard.Dated := by
  induction xs generalizing s with
  | nil => exact hs
  | cons x xs ih =>
    refine ih ((hf.notes_act s fun c hc => ?_).dated hs) fun c hc => ?_
    · subst hc
      exact hread c (List.mem_cons_self ..)
    · refine hread c ?_
      cases x with
      | node c' => exact List.mem_cons_of_mem _ hc
      | _ => exact hc

/-! ## From the start of an object on -/

/-- The verdict on an object: it is allowed, and gets a frame. -/
theorem TakesParams.judge_object (hf : f.TakesParams) (g : ObjectGuard) {e : Element}
    (hc : e.condition = none) (hobject : e.isNamed "object" = true) (hself : e.selfClosed = false) :
    (f.judge g e none false).decision = .allowed ∧
      (f.judge g e none false).objectKey? = some g.nextKey ∧
      (f.judge g e none false).guard = g.open.2 := by
  obtain ⟨rule, hdecide⟩ := hf.decide_object hc hobject
  have hnamed : ∀ name, (f.listed rule e).isNamed name = e.isNamed name := fun _ => rfl
  have hopens : ((f.listed rule e).isNamed "object" && !(f.listed rule e).selfClosed) = true := by
    rw [hnamed, hobject, show (f.listed rule e).selfClosed = e.selfClosed from rfl, hself]
    rfl
  have hprotected : f.protect g (f.listed rule e) .allowed =
      (some g.nextKey, g.open.2, f.listed rule e) := by
    unfold Filter.protect
    rw [if_pos (by rw [hf.protect]; rfl), hnamed, hnamed, Element.isNamed_eq hobject,
      Element.isNamed_eq hobject, if_neg (by decide), if_neg (by decide), if_pos hopens]
    rfl
  simp only [judge, hdecide, hprotected]
  exact ⟨trivial, trivial, trivial⟩

section

variable {s : Scene} {e : Element} {xs : List Event}

/-- **What an object was given** since its start is what events have named since. -/
theorem TakesParams.gives_after (hf : f.TakesParams) (hs : s.guard.Dated) (hc : e.condition = none)
    (hobject : e.isNamed "object" = true) (hself : e.selfClosed = false)
    (hread : ∀ c ∈ contents xs, c.WellRead) (t : SafetySetting) :
    (f.after (f.act s (.node (.element e))) xs).guard.gives s.guard.nextKey t = true ↔
      ∃ x ∈ xs, x.setting? = some t := by
  have hguard : (f.act s (.node (.element e))).guard = s.guard.open.2 :=
    (hf.judge_object s.guard hc hobject hself).2.2
  have hnotes := hf.notesAll_after (f.act s (.node (.element e))) hread
  rw [hguard] at hnotes
  rw [ObjectGuard.gives]
  constructor
  · intro hgives
    by_contra hnone
    have hothers := hnotes.others t fun x hx hsetting => hnone ⟨x, hx, hsetting⟩
    rw [hothers] at hgives
    obtain ⟨opened, hlookup, hlt⟩ := (Option.any_eq_true ..).1 hgives
    exact Nat.not_lt_of_le (hs.given t opened hlookup) (of_decide_eq_true hlt)
  · intro hgiven
    obtain ⟨opened, hlookup, hle⟩ := hnotes.given t hgiven
    rw [hlookup, Option.any_some, decide_eq_true_iff]
    exact hle

/-- **An object may use the network freely** only if the last address since its start, or since that
of an object around it, is allowed. -/
theorem TakesParams.exists_lastAddress (hf : f.TakesParams) (hs : s.guard.Dated)
    (hc : e.condition = none) (hobject : e.isNamed "object" = true) (hself : e.selfClosed = false)
    (hread : ∀ c ∈ contents xs, c.WellRead) {key : Nat} (hkey : s.guard.nextKey ≤ key)
    (hall : (f.after (f.act s (.node (.element e))) xs).guard.networkingIn key = .all) :
    ∃ url, lastAddress xs = some url ∧ f.settings.urlAllowList.allows url = true := by
  have hguard : (f.act s (.node (.element e))).guard = s.guard.open.2 :=
    (hf.judge_object s.guard hc hobject hself).2.2
  have hnotes := hf.notesAll_after (f.act s (.node (.element e))) hread
  rw [hguard] at hnotes
  rw [ObjectGuard.networkingIn] at hall
  cases hlast : lastAddress xs with
  | none =>
    -- the address was given before the object was there
    rw [hnotes.noAddress hlast] at hall
    split at hall
    · next networking opened haddress =>
      have hle := hs.address networking opened haddress
      rw [if_neg (by omega)] at hall
      cases hall
    · cases hall
  | some url =>
    obtain ⟨opened, -, haddress⟩ := hnotes.address url hlast
    rw [haddress] at hall
    refine ⟨url, rfl, ?_⟩
    by_contra hdenied
    rw [Bool.not_eq_true] at hdenied
    rw [ObjectGuard.networkingOf, hdenied] at hall
    dsimp only at hall
    split at hall <;> cases hall

end

end Filter

end MarkupFilter
