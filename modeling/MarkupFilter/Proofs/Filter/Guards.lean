import MarkupFilter.Proofs.Filter.Settling

/-!
# What the guard is told

All that a start tag changes of the guard is what it is told to remember: that an object was
opened, or that a setting was given. This is the same for elements that are written alike.

## Main definitions

* `Filter.Guards` — what an allowed element does to the guard.
* `ObjectGuard.Covers` — a guard that has seen the same objects, and each setting as late.

## Main results

* `Filter.guards_judge` — what the guard does with an element, seen from what is written.
* `Filter.covers_guards` — elements that are alike do the same to guards that are.
* `Filter.exists_settings` — what an object is given before its end tag.
-/

set_option autoImplicit false

namespace MarkupFilter

/-- An element that has a name has no other. -/
theorem Element.isNamed_eq {e : Element} {name : String} (h : e.isNamed name = true)
    (other : String) : e.isNamed other = AsciiCase.same name other := by
  rw [Element.isNamed, AsciiCase.same, (AsciiCase.same_iff ..).1 h, AsciiCase.same]

namespace Filter

variable {f : Filter}

/-! ## What an allowed element does to the guard -/

/-- The setting that an allowed element gives to the objects around it. -/
def settingGiven? (f : Filter) (e : Element) : Option SafetySetting :=
  if f.settings.protectObjects && e.isNamed "param" then settingOf? e.attributes else none

/-- An allowed element gets a frame. -/
def opensFrame (f : Filter) (e : Element) : Bool :=
  f.settings.protectObjects && (e.isNamed "object" && !e.selfClosed)

/-- The guard `g` becomes `g'` by the start tag of an allowed element, which gets the frame
`key?`. -/
structure Guards (f : Filter) (g : ObjectGuard) (e : Element) (key? : Option Nat)
    (g' : ObjectGuard) : Prop where
  key : key? = if f.opensFrame e then some g.nextKey else none
  nextKey : g'.nextKey = if f.opensFrame e then g.nextKey + 1 else g.nextKey
  openKeys : g'.openKeys = if f.opensFrame e then g.nextKey :: g.openKeys else g.openKeys
  given : g'.given = match f.settingGiven? e with
    | some s => (s, g.nextKey) :: g.given.filter fun entry => entry.1 != s
    | none => g.given

/-- Only an element that gets a frame has one. -/
theorem Guards.opensFrame_of_key {g g' : ObjectGuard} {e : Element} {key? : Option Nat}
    (h : Guards f g e key? g') (hsome : key?.isSome = true) : f.opensFrame e = true := by
  by_contra hframe
  rw [h.key, if_neg hframe] at hsome
  cases hsome

theorem guards_congr {g g' : ObjectGuard} {e x : Element} {key? : Option Nat}
    (h : Guards f g e key? g') (hsetting : f.settingGiven? x = f.settingGiven? e)
    (hframe : f.opensFrame x = f.opensFrame e) : Guards f g x key? g' := by
  refine ⟨?_, ?_, ?_, ?_⟩
  · rw [hframe]
    exact h.key
  · rw [hframe]
    exact h.nextKey
  · rw [hframe]
    exact h.openKeys
  · rw [hsetting]
    exact h.given

theorem guards_unchanged (g : ObjectGuard) {e : Element}
    (hframe : f.opensFrame e = false) (hsetting : f.settingGiven? e = none) :
    Guards f g e none g :=
  ⟨by rw [hframe]; rfl, by rw [hframe]; rfl, by rw [hframe]; rfl, by rw [hsetting]⟩

/-- A parameter gives the setting that it names. -/
theorem guards_param (f : Filter) (hprotect : f.settings.protectObjects = true) (g : ObjectGuard)
    {e : Element} (hparam : e.isNamed "param" = true) :
    Guards f g e none (g.param f.settings.urlAllowList e).1 := by
  have hframe : f.opensFrame e = false := by
    have hobject : e.isNamed "object" = false := by
      rw [Element.isNamed_eq hparam]
      decide
    rw [opensFrame, hobject, Bool.false_and, Bool.and_false]
  have hsetting : f.settingGiven? e = settingOf? e.attributes := by
    rw [settingGiven?, hprotect, hparam]
    rfl
  have hurl : ∀ name value?, (g.recordUrl f.settings.urlAllowList name value?).nextKey = g.nextKey ∧
      (g.recordUrl f.settings.urlAllowList name value?).openKeys = g.openKeys ∧
      (g.recordUrl f.settings.urlAllowList name value?).given = g.given := by
    intro name value?
    unfold ObjectGuard.recordUrl
    split <;> exact ⟨rfl, rfl, rfl⟩
  unfold ObjectGuard.param
  rw [settingOf?] at hsetting
  cases hvalue : e.attributes.value? "name" with
  | none =>
    rw [hvalue] at hsetting
    exact guards_unchanged g hframe hsetting
  | some name =>
    obtain ⟨hnext, hkeys, hgiven⟩ := hurl name (e.attributes.value? "value")
    rw [hvalue, Option.bind_some] at hsetting
    dsimp only
    cases hname : SafetySetting.ofName? name with
    | none =>
      rw [hname] at hsetting
      exact ⟨by rw [hframe]; rfl, by rw [hframe]; exact hnext, by rw [hframe]; exact hkeys,
        by rw [hsetting]; exact hgiven⟩
    | some s =>
      rw [hname] at hsetting
      refine ⟨by rw [hframe]; rfl, by rw [hframe]; exact hnext, by rw [hframe]; exact hkeys, ?_⟩
      rw [hsetting]
      dsimp only [ObjectGuard.recordSetting]
      rw [hnext, hgiven]

/-- What the guard does with an allowed element. -/
theorem guards_protect (f : Filter) (g : ObjectGuard) (e : Element) :
    Guards f g e (f.protect g e .allowed).1 (f.protect g e .allowed).2.1 := by
  unfold protect
  by_cases hprotect : f.settings.protectObjects = true
  · rw [if_pos (by rw [hprotect]; rfl)]
    by_cases hparam : e.isNamed "param" = true
    · rw [if_pos hparam]
      exact guards_param f hprotect g hparam
    · have hsetting : f.settingGiven? e = none := if_neg (by simp [hparam])
      rw [if_neg hparam]
      by_cases hembed : e.isNamed "embed" = true
      · have hframe : f.opensFrame e = false := by
          have hobject : e.isNamed "object" = false := by
            rw [Element.isNamed_eq hembed]
            decide
          rw [opensFrame, hobject, Bool.false_and, Bool.and_false]
        rw [if_pos hembed]
        exact guards_unchanged g hframe hsetting
      · rw [if_neg hembed]
        by_cases hobject : (e.isNamed "object" && !e.selfClosed) = true
        · have hframe : f.opensFrame e = true := by rw [opensFrame, hprotect, hobject]; rfl
          rw [if_pos hobject]
          exact ⟨by rw [hframe]; rfl, by rw [hframe]; rfl, by rw [hframe]; rfl,
            by rw [hsetting]; rfl⟩
        · rw [if_neg hobject]
          rw [Bool.not_eq_true] at hobject
          refine guards_unchanged g ?_ hsetting
          rw [opensFrame, hobject, Bool.and_false]
  · rw [Bool.not_eq_true] at hprotect
    rw [if_neg (by rw [hprotect]; decide)]
    exact guards_unchanged g (by rw [opensFrame, hprotect, Bool.false_and])
      (if_neg (by simp [hprotect]))

/-- A forced value does not change what a parameter gives. -/
theorem settingGiven?_protect (f : Filter) (g : ObjectGuard) (e : Element) :
    f.settingGiven? (f.protect g e .allowed).2.2 = f.settingGiven? e := by
  have htag := sameTag_protect f g e .allowed
  have hnamed : (f.protect g e .allowed).2.2.isNamed "param" = e.isNamed "param" := by
    rw [Element.isNamed, Element.isNamed, htag.name]
  unfold settingGiven?
  rw [hnamed]
  by_cases hgives : (f.settings.protectObjects && e.isNamed "param") = true
  · rw [if_pos hgives, if_pos hgives]
    obtain ⟨hprotect, hparam⟩ := Bool.and_eq_true_iff.1 hgives
    unfold protect
    rw [if_pos (by rw [hprotect]; rfl), if_pos hparam]
    exact settingOf?_param _ g e
  · rw [if_neg hgives, if_neg hgives]

/-- What an allowed element does to the guard, seen from the element that is written. -/
theorem guards_judge {g : ObjectGuard} {e : Element} {parent? : Option String} {neverClosed : Bool}
    (hd : (f.judge g e parent? neverClosed).decision = .allowed) :
    Guards f g (f.judge g e parent? neverClosed).element
      (f.judge g e parent? neverClosed).objectKey? (f.judge g e parent? neverClosed).guard := by
  have hprotected := guards_protect f g (f.decide e parent? neverClosed).2
  have htag := sameTag_protect f g (f.decide e parent? neverClosed).2 .allowed
  have hdecision : (f.decide e parent? neverClosed).1 = .allowed := hd
  simp only [judge, hdecision]
  refine guards_congr hprotected (settingGiven?_protect f g _) ?_
  rw [opensFrame, opensFrame, Element.isNamed, Element.isNamed, htag.name, htag.selfClosed]

/-! ## The end of an object -/

/-- The end of an element closes its frame. -/
theorem endObject_guard (g : ObjectGuard) (key? : Option Nat) (inPlace : Bool) :
    (endObject g key? inPlace).2 =
      { g with openKeys := (key?.map g.openKeys.erase).getD g.openKeys } := by
  cases key? with
  | none => rfl
  | some key => exact close_guard ..

/-- What is written before the end tag of an element: the settings that its frame was not given. -/
theorem exists_settings {g : ObjectGuard} (hg : g.Internal) (key? : Option Nat) :
    ∃ settings : List SafetySetting,
      (endObject g key? true).1 = settings.map (fun s => (s.name, s.value .internal)) ∧
        (key? = none → settings = []) ∧
        ∀ key, key? = some key → key ∈ g.openKeys → ∀ s, s ∉ settings → g.gives key s = true := by
  cases key? with
  | none => exact ⟨[], rfl, fun _ => rfl, fun _ h => nomatch h⟩
  | some key =>
    by_cases hopen : g.openKeys.contains key = true
    · refine ⟨SafetySetting.all.filter fun s => !(g.frame key).given.contains s, ?_,
        (fun h => nomatch h), fun k hk _ s hs => ?_⟩
      · rw [endObject, ObjectGuard.close, if_pos hopen, if_pos rfl, ObjectFrame.missing]
        have hinternal : (g.frame key).networking = .internal := hg.networkingIn key
        rw [hinternal]
      · cases hk
        by_contra hgives
        refine hs (List.mem_filter.2 ⟨s.mem_all, ?_⟩)
        have hnot : s ∉ (g.frame key).given := fun hmem => hgives (List.mem_filter.1 hmem).2
        simpa using hnot
    · refine ⟨[], ?_, (fun _ => rfl), fun k hk hmem => ?_⟩
      · rw [endObject, ObjectGuard.close, if_neg hopen]
        rfl
      · cases hk
        exact absurd (List.contains_iff_mem.2 hmem) hopen

end Filter

/-! ## Two guards -/

/-- The guard `g'` has seen as many objects as `g`, and the same settings at least as late. -/
structure ObjectGuard.Covers (g g' : ObjectGuard) : Prop where
  nextKey : g'.nextKey = g.nextKey
  before : ∀ s n, g.given.lookup s = some n → n ≤ g.nextKey
  given : ∀ s n, g.given.lookup s = some n → ∃ n', g'.given.lookup s = some n' ∧ n ≤ n'

/-- What was given to an object in the first run is given to it in the second. -/
theorem ObjectGuard.Covers.gives {g g' : ObjectGuard} (h : g.Covers g') {key : Nat}
    {s : SafetySetting} (hgives : g.gives key s = true) : g'.gives key s = true := by
  rw [ObjectGuard.gives] at hgives ⊢
  cases hn : g.given.lookup s with
  | none =>
    rw [hn] at hgives
    cases hgives
  | some n =>
    rw [hn, Option.any_some, decide_eq_true_iff] at hgives
    obtain ⟨n', hn', hle⟩ := h.given s n hn
    rw [hn', Option.any_some, decide_eq_true_iff]
    exact Nat.lt_of_lt_of_le hgives hle

theorem ObjectGuard.covers_empty : ({} : ObjectGuard).Covers {} :=
  ⟨rfl, (fun _ _ h => nomatch h), fun _ _ h => nomatch h⟩

namespace Filter

variable {f : Filter}

theorem lookup_filter_ne {s t : SafetySetting} (h : s ≠ t) (given : List (SafetySetting × Nat)) :
    (given.filter fun entry => entry.1 != t).lookup s = given.lookup s := by
  induction given with
  | nil => rfl
  | cons entry given ih =>
    by_cases ht : entry.1 = t
    · have hne : (s == entry.1) = false := beq_eq_false_iff_ne.2 (ht ▸ h)
      rw [List.filter_cons_of_neg (by simp [ht]), ih, List.lookup_cons, hne]
    · rw [List.filter_cons_of_pos (by simpa using ht), List.lookup_cons, List.lookup_cons, ih]

/-- When a setting was given, after a note on a setting that replaces earlier ones. -/
theorem lookup_note (s t : SafetySetting) (n : Nat) (given : List (SafetySetting × Nat)) :
    ((t, n) :: given.filter fun entry => entry.1 != t).lookup s =
      if t = s then some n else given.lookup s := by
  by_cases hs : t = s
  · subst hs
    rw [if_pos rfl, List.lookup_cons, beq_self_eq_true]
  · have hne : (s == t) = false := beq_eq_false_iff_ne.2 (Ne.symm hs)
    rw [if_neg hs, List.lookup_cons, hne]
    exact lookup_filter_ne (Ne.symm hs) given

/-- When a setting was given, after one more element. -/
theorem Guards.lookup {g g' : ObjectGuard} {e : Element} {key? : Option Nat}
    (h : Guards f g e key? g') (s : SafetySetting) :
    g'.given.lookup s =
      if f.settingGiven? e = some s then some g.nextKey else g.given.lookup s := by
  rw [h.given]
  cases f.settingGiven? e with
  | none => rw [if_neg (by simp)]
  | some t =>
    dsimp only
    rw [lookup_note]
    exact if_congr (Option.some_inj).symm rfl rfl

/-- Elements that give the same setting do the same to both guards. -/
theorem covers_guards {g g' h h' : ObjectGuard} {e x : Element} {key? key?' : Option Nat}
    (hcovers : g.Covers g') (hguards : Guards f g e key? h) (hguards' : Guards f g' x key?' h')
    (hsetting : f.settingGiven? x = f.settingGiven? e) (hframe : f.opensFrame x = f.opensFrame e) :
    key?' = key? ∧ h.Covers h' := by
  have hnext : h'.nextKey = h.nextKey := by
    rw [hguards'.nextKey, hguards.nextKey, hframe, hcovers.nextKey]
  have hle : g.nextKey ≤ h.nextKey := by
    rw [hguards.nextKey]
    split <;> omega
  refine ⟨by rw [hguards'.key, hguards.key, hframe, hcovers.nextKey], hnext, fun s n hn => ?_,
    fun s n hn => ?_⟩
  · rw [hguards.lookup] at hn
    split at hn
    · cases hn
      exact hle
    · exact Nat.le_trans (hcovers.before s n hn) hle
  · rw [hguards.lookup] at hn
    rw [hguards'.lookup, hsetting, hcovers.nextKey]
    split at hn
    · next hgives =>
      rw [if_pos hgives]
      exact ⟨n, hn, Nat.le_refl n⟩
    · next hgives =>
      rw [if_neg hgives]
      exact hcovers.given s n hn

/-- The end of an object changes nothing of this. -/
theorem covers_endObject {g g' : ObjectGuard} (h : g.Covers g') (key? key?' : Option Nat)
    (inPlace inPlace' : Bool) :
    (endObject g key? inPlace).2.Covers (endObject g' key?' inPlace').2 := by
  rw [endObject_guard, endObject_guard]
  exact ⟨h.nextKey, h.before, h.given⟩

/-- An object that was given everything gets nothing before its end tag. -/
theorem endObject_of_gives {g : ObjectGuard} {key? : Option Nat}
    (h : ∀ key, key? = some key → ∀ s, g.gives key s = true) : (endObject g key? true).1 = [] := by
  cases key? with
  | none => rfl
  | some key =>
    have hmissing : (g.frame key).missing = [] := by
      have hall : SafetySetting.all.filter (fun s => !(g.frame key).given.contains s) = [] := by
        refine List.filter_eq_nil_iff.2 fun s hs => ?_
        have hgiven : s ∈ (g.frame key).given := List.mem_filter.2 ⟨hs, h key rfl s⟩
        simpa using hgiven
      rw [ObjectFrame.missing, hall, List.map_nil]
    rw [endObject, ObjectGuard.close]
    split
    · rw [if_pos rfl, hmissing]
    · rfl

end Filter

end MarkupFilter
