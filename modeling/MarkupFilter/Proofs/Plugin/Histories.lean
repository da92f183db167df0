import MarkupFilter.Proofs.Filter.Guards

/-!
# What an object guard remembers

Objects are opened and closed in any order, and a parameter counts for all that are open. What the
guard has to say when an object is closed depends on the parameters since it was opened, and on
nothing else: not on other objects that were opened or closed in between, nor on what came before.

The guard keeps no frame for each object but notes on the last time that something was given. So the
invariant is about these notes: each is as old as the number of objects that it carries, and an
object is told from the notes by its own number.

## Main definitions

* `GuardCall` — what can be asked of a guard.
* `ObjectGuard.after`, `ObjectGuard.keys` — the guard after calls, and the keys that it gave out.
* `ObjectGuard.OpenSince` — an object is open, and the calls since it was opened.
* `ObjectGuard.missingSince` — the settings that were not given in these calls.
* `ObjectGuard.Sound` — the notes carry numbers of objects that have been opened.

## Main results

* `ObjectGuard.gives_run`, `ObjectGuard.networkingIn_run` — what is given in calls.
* `ObjectGuard.mem_openKeys_iff` — which objects are open.
* `ObjectGuard.close_after` — what is injected when an object is closed.
-/

set_option autoImplicit false

namespace MarkupFilter

/-- A setting has one name, whatever the case of its letters. -/
theorem SafetySetting.ofName?_eq_some_iff {name : String} {s : SafetySetting} :
    ofName? name = some s ↔ AsciiCase.same s.name name = true := by
  have hdistinct : ∀ s ∈ all, ∀ t ∈ all, AsciiCase.lower s.name = AsciiCase.lower t.name →
      s = t := by decide +kernel
  constructor
  · intro h
    have hfound := List.find?_some h
    exact hfound
  · intro h
    cases hname : ofName? name with
    | none =>
      have hnone := List.find?_eq_none.1 hname s s.mem_all
      exact absurd h hnone
    | some t =>
      have ht := List.find?_some hname
      rw [AsciiCase.same_iff] at h ht
      rw [hdistinct t t.mem_all s s.mem_all (ht.trans h.symm)]

/-! ## Calls -/

/-- What can be asked of an object guard. -/
inductive GuardCall where
  | opened
  | param (e : Element)
  | closed (key : Nat) (inject : Bool)

namespace GuardCall

/-- The call is a parameter with the name of the setting. -/
def names (s : SafetySetting) : GuardCall → Bool
  | .param e => (e.attributes.value? "name").any (AsciiCase.same s.name)
  | _ => false

/-- The address that a call gives: the value of a parameter whose name is one for addresses. -/
def address? : GuardCall → Option String
  | .param e =>
    if (e.attributes.value? "name").any ObjectGuard.namesUrl then e.attributes.value? "value"
    else none
  | _ => none

end GuardCall

namespace ObjectGuard

variable (urls : UrlAllowList)

/-- The guard after a call. -/
def call (g : ObjectGuard) : GuardCall → ObjectGuard
  | .opened => g.open.2
  | .param e => (g.param urls e).1
  | .closed key inject => (g.close key inject).2

/-- The guard after calls that follow a given state. -/
def run (g : ObjectGuard) (calls : List GuardCall) : ObjectGuard :=
  calls.foldl (call urls) g

/-- A new guard after calls. -/
def after (calls : List GuardCall) : ObjectGuard :=
  run urls {} calls

/-- The keys that objects get in calls that follow a given state. -/
def keysFrom : ObjectGuard → List GuardCall → List Nat
  | _, [] => []
  | g, .opened :: calls => g.open.1 :: keysFrom (g.call urls .opened) calls
  | g, c :: calls => keysFrom (g.call urls c) calls

/-- The keys that objects get from a new guard. -/
def keys (calls : List GuardCall) : List Nat :=
  keysFrom urls {} calls

/-- After `calls`, the object that was opened with `key` has not been closed, and `since` are the
calls since it was opened. -/
def OpenSince (calls : List GuardCall) (key : Nat) (since : List GuardCall) : Prop :=
  ∃ before, calls = before ++ .opened :: since ∧ (after urls before).open.1 = key ∧
    ∀ inject, .closed key inject ∉ since

/-- How far an object may use the network that was opened before the calls: freely if the last
address among them is allowed, and otherwise not. -/
def networkingSince (since : List GuardCall) : Networking :=
  if (since.filterMap GuardCall.address?).getLast?.any urls.allows then .all else .internal

/-- The settings that no parameter among the calls has named, with their values. -/
def missingSince (since : List GuardCall) : List (String × String) :=
  (SafetySetting.all.filter fun s => !since.any (·.names s)).map fun s =>
    (s.name, s.value (networkingSince urls since))

/-! ## One call -/

variable {urls} {g : ObjectGuard}

theorem recordUrl_eq (name : String) (value? : Option String) :
    g.recordUrl urls name value? =
      { g with address? :=
          ((if namesUrl name then value? else none).map fun url =>
            (networkingOf urls url, g.nextKey)).or g.address? } := by
  unfold recordUrl
  cases namesUrl name with
  | false => rfl
  | true => cases value? <;> rfl

/-- What a parameter changes: the notes on its address and on the setting that it names. -/
theorem guard_param (e : Element) :
    (g.param urls e).1 =
      { g with
        address? := ((GuardCall.param e).address?.map fun url =>
          (networkingOf urls url, g.nextKey)).or g.address?
        given := match Filter.settingOf? e.attributes with
          | some s => (s, g.nextKey) :: g.given.filter fun entry => entry.1 != s
          | none => g.given } := by
  have haddress : (GuardCall.param e).address? =
      if (e.attributes.value? "name").any namesUrl then e.attributes.value? "value" else none := rfl
  rw [haddress, ObjectGuard.param, Filter.settingOf?]
  cases e.attributes.value? "name" with
  | none => rfl
  | some name =>
    dsimp only [Option.any_some, Option.bind_some]
    rw [recordUrl_eq]
    cases SafetySetting.ofName? name <;> rfl

/-- The setting that a parameter gives is the one that it names. -/
theorem settingOf?_eq_some_iff {e : Element} {s : SafetySetting} :
    Filter.settingOf? e.attributes = some s ↔ (GuardCall.param e).names s = true := by
  have hnames : (GuardCall.param e).names s =
      (e.attributes.value? "name").any (AsciiCase.same s.name) := rfl
  rw [hnames, Filter.settingOf?]
  cases e.attributes.value? "name" with
  | none => exact iff_of_false (Option.some_ne_none s).symm Bool.false_ne_true
  | some name => exact SafetySetting.ofName?_eq_some_iff

/-- When a setting was given, after one more parameter. -/
theorem lookup_given_param (e : Element) (s : SafetySetting) :
    (g.param urls e).1.given.lookup s =
      if (GuardCall.param e).names s then some g.nextKey else g.given.lookup s := by
  rw [guard_param]
  dsimp only
  cases hsetting : Filter.settingOf? e.attributes with
  | none =>
    rw [if_neg fun h => by rw [settingOf?_eq_some_iff.2 h] at hsetting; cases hsetting]
  | some t =>
    dsimp only
    rw [Filter.lookup_note]
    exact if_congr (by rw [← settingOf?_eq_some_iff, hsetting, Option.some_inj]) rfl rfl

theorem nextKey_call_le (c : GuardCall) : g.nextKey ≤ (g.call urls c).nextKey := by
  cases c with
  | opened => exact Nat.le_succ _
  | param e => rw [call, guard_param]
  | closed key inject => rw [call, Filter.close_guard]

/-- A setting is given to an object by the parameters that name it. -/
theorem gives_call {key : Nat} (hkey : key < g.nextKey) (c : GuardCall) (s : SafetySetting) :
    (g.call urls c).gives key s = (c.names s || g.gives key s) := by
  cases c with
  | opened => rfl
  | param e =>
    rw [call, gives, gives, lookup_given_param]
    cases (GuardCall.param e).names s with
    | true => simpa using hkey
    | false => rfl
  | closed key inject =>
    rw [call, Filter.close_guard]
    rfl

/-- How far an object may use the network changes with each address. -/
theorem networkingIn_call {key : Nat} (hkey : key < g.nextKey) (c : GuardCall) :
    (g.call urls c).networkingIn key =
      (c.address?.map (networkingOf urls)).getD (g.networkingIn key) := by
  cases c with
  | opened => rfl
  | param e =>
    rw [call, networkingIn, guard_param]
    dsimp only
    cases (GuardCall.param e).address? with
    | none => rfl
    | some url => simp [hkey]
  | closed key inject =>
    rw [call, Filter.close_guard]
    rfl

/-! ## Rows of calls -/

theorem run_append (xs ys : List GuardCall) :
    run urls g (xs ++ ys) = run urls (run urls g xs) ys := by
  rw [run, List.foldl_append]
  rfl

theorem run_cons (c : GuardCall) (calls : List GuardCall) :
    run urls g (c :: calls) = run urls (g.call urls c) calls :=
  rfl

theorem after_concat (calls : List GuardCall) (c : GuardCall) :
    after urls (calls ++ [c]) = (after urls calls).call urls c :=
  run_append calls [c]

/-- What is given to an object in a row of calls, by induction on them. -/
theorem gives_run {key : Nat} (hkey : key < g.nextKey) (calls : List GuardCall)
    (s : SafetySetting) :
    (run urls g calls).gives key s = (calls.any (·.names s) || g.gives key s) := by
  induction calls generalizing g with
  | nil => rfl
  | cons c calls ih =>
    rw [run_cons, ih (Nat.lt_of_lt_of_le hkey (nextKey_call_le c)), gives_call hkey, List.any_cons,
      Bool.or_left_comm, Bool.or_assoc]

/-- The last address in a row of calls decides how far an object may use the network. -/
theorem networkingIn_run {key : Nat} (hkey : key < g.nextKey) (calls : List GuardCall) :
    (run urls g calls).networkingIn key =
      ((calls.filterMap GuardCall.address?).getLast?.map (networkingOf urls)).getD
        (g.networkingIn key) := by
  induction calls generalizing g with
  | nil => rfl
  | cons c calls ih =>
    rw [run_cons, ih (Nat.lt_of_lt_of_le hkey (nextKey_call_le c)), networkingIn_call hkey]
    cases haddress : c.address? with
    | none => rw [List.filterMap_cons_none haddress]; rfl
    | some url =>
      rw [List.filterMap_cons_some haddress, List.getLast?_cons]
      cases (calls.filterMap GuardCall.address?).getLast? <;> rfl

/-! ## Keys -/

/-- The keys of a row of calls ascend, and start where the guard stands. -/
theorem pairwise_keysFrom (g : ObjectGuard) (calls : List GuardCall) :
    (keysFrom urls g calls).Pairwise (· < ·) ∧ ∀ key ∈ keysFrom urls g calls, g.nextKey ≤ key := by
  induction calls generalizing g with
  | nil => exact ⟨.nil, fun _ h => absurd h List.not_mem_nil⟩
  | cons c calls ih =>
    obtain ⟨hpairwise, hle⟩ := ih (g.call urls c)
    have hlater : ∀ key ∈ keysFrom urls (g.call urls c) calls, g.nextKey ≤ key := fun key hkey =>
      Nat.le_trans (nextKey_call_le c) (hle key hkey)
    cases c with
    | opened =>
      refine ⟨List.pairwise_cons.2 ⟨fun key hkey => hle key hkey, hpairwise⟩, fun key hkey => ?_⟩
      rcases List.mem_cons.1 hkey with rfl | hmem
      · exact Nat.le_refl _
      · exact hlater key hmem
    | param e => exact ⟨hpairwise, hlater⟩
    | closed key inject => exact ⟨hpairwise, hlater⟩

/-! ## Soundness -/

/-- The notes of the guard were taken when as many objects had been opened as they say, and each open
object has a key of its own that was given out. -/
structure Sound (g : ObjectGuard) : Prop where
  given : ∀ s opened, g.given.lookup s = some opened → opened ≤ g.nextKey
  address : ∀ networking opened, g.address? = some (networking, opened) → opened ≤ g.nextKey
  openKeys : ∀ key ∈ g.openKeys, key < g.nextKey
  nodup : g.openKeys.Nodup

theorem sound_empty : ({} : ObjectGuard).Sound :=
  ⟨by rintro _ _ ⟨⟩, by rintro _ _ ⟨⟩, fun _ h => absurd h List.not_mem_nil, .nil⟩

/-- A call keeps the guard sound. -/
theorem Sound.call (h : g.Sound) (c : GuardCall) : (g.call urls c).Sound := by
  cases c with
  | opened =>
    refine ⟨fun s n hn => Nat.le_succ_of_le (h.given s n hn),
      fun n o ho => Nat.le_succ_of_le (h.address n o ho), fun key hkey => ?_, ?_⟩
    · rcases List.mem_cons.1 hkey with rfl | hmem
      · exact Nat.lt_succ_self _
      · exact Nat.lt_succ_of_lt (h.openKeys key hmem)
    · exact List.nodup_cons.2 ⟨fun hmem => Nat.lt_irrefl _ (h.openKeys _ hmem), h.nodup⟩
  | param e =>
    have hgiven : ∀ s, (g.param urls e).1.given.lookup s =
        if (GuardCall.param e).names s then some g.nextKey else g.given.lookup s :=
      lookup_given_param e
    rw [ObjectGuard.call]
    refine ⟨fun s n hn => ?_, fun n o ho => ?_, ?_, ?_⟩
    · rw [hgiven] at hn
      rw [guard_param]
      split at hn
      · cases hn
        exact Nat.le_refl _
      · exact h.given s n hn
    · rw [guard_param] at ho ⊢
      dsimp only at ho ⊢
      cases hurl : (GuardCall.param e).address? with
      | none =>
        rw [hurl] at ho
        exact h.address n o ho
      | some url =>
        rw [hurl] at ho
        cases ho
        exact Nat.le_refl _
    · rw [guard_param]
      exact h.openKeys
    · rw [guard_param]
      exact h.nodup
  | closed key inject =>
    rw [ObjectGuard.call, Filter.close_guard]
    exact ⟨h.given, h.address, fun k hk => h.openKeys k (List.mem_of_mem_erase hk),
      h.nodup.erase key⟩

theorem Sound.run (h : g.Sound) (calls : List GuardCall) : (run urls g calls).Sound := by
  induction calls generalizing g with
  | nil => exact h
  | cons c calls ih => exact ih (h.call c)

/-- A new object has been given nothing. -/
theorem Sound.frame_open (h : g.Sound) :
    (∀ s, g.open.2.gives g.nextKey s = false) ∧ g.open.2.networkingIn g.nextKey = .internal := by
  constructor
  · intro s
    rw [gives, show g.open.2.given = g.given from rfl]
    cases hlookup : g.given.lookup s with
    | none => rfl
    | some opened => simpa using h.given s opened hlookup
  · rw [networkingIn, show g.open.2.address? = g.address? from rfl]
    cases haddress : g.address? with
    | none => rfl
    | some note => exact if_neg (Nat.not_lt.2 (h.address note.1 note.2 haddress))

/-! ## Histories -/

/-- An object is open after one more call if it was just opened, or if it was open and the call does
not close it. -/
theorem openSince_concat {calls since : List GuardCall} {c : GuardCall} {key : Nat} :
    OpenSince urls (calls ++ [c]) key since ↔
      (since = [] ∧ c = .opened ∧ (after urls calls).nextKey = key) ∨
      ∃ earlier, since = earlier ++ [c] ∧ OpenSince urls calls key earlier ∧
        ∀ inject, c ≠ .closed key inject := by
  constructor
  · rintro ⟨before, hcalls, hkey, hnone⟩
    rcases List.eq_nil_or_concat' since with rfl | ⟨earlier, d, rfl⟩
    · obtain ⟨rfl, heq⟩ := List.append_inj' hcalls rfl
      cases heq
      exact .inl ⟨rfl, rfl, hkey⟩
    · rw [← List.cons_append, ← List.append_assoc] at hcalls
      obtain ⟨rfl, heq⟩ := List.append_inj' hcalls rfl
      cases heq
      refine .inr ⟨earlier, rfl, ⟨before, rfl, hkey, fun inject hmem => ?_⟩, fun inject heq => ?_⟩
      · exact hnone inject (List.mem_append_left _ hmem)
      · exact hnone inject (heq ▸ List.mem_append_right _ (List.mem_singleton_self _))
  · rintro (⟨rfl, rfl, hkey⟩ | ⟨earlier, rfl, ⟨before, rfl, hkey, hnone⟩, hc⟩)
    · exact ⟨calls, rfl, hkey, fun _ => List.not_mem_nil⟩
    · refine ⟨before, by simp, hkey, fun inject hmem => ?_⟩
      rcases List.mem_append.1 hmem with hmem | hmem
      · exact hnone inject hmem
      · exact hc inject (List.mem_singleton.1 hmem).symm

/-- **Which objects are open**: those that were opened and have not been closed since. The induction
is on the calls, from the last one. -/
theorem mem_openKeys_iff (calls : List GuardCall) (key : Nat) :
    key ∈ (after urls calls).openKeys ↔ ∃ since, OpenSince urls calls key since := by
  induction calls using List.reverseRecOn with
  | nil =>
    refine iff_of_false List.not_mem_nil ?_
    rintro ⟨since, before, hcalls, -⟩
    simp at hcalls
  | append_singleton calls c ih =>
    have hsound : (after urls calls).Sound := sound_empty.run calls
    rw [after_concat]
    simp only [openSince_concat]
    cases c with
    | opened =>
      rw [call, ObjectGuard.open, List.mem_cons, ih]
      constructor
      · rintro (rfl | ⟨since, h⟩)
        · exact ⟨[], .inl ⟨rfl, rfl, rfl⟩⟩
        · exact ⟨since ++ [.opened], .inr ⟨since, rfl, h, fun _ => GuardCall.noConfusion⟩⟩
      · rintro ⟨since, ⟨-, -, rfl⟩ | ⟨earlier, -, h, -⟩⟩
        · exact .inl rfl
        · exact .inr ⟨earlier, h⟩
    | param e =>
      rw [call, guard_param]
      dsimp only
      rw [ih]
      constructor
      · rintro ⟨since, h⟩
        exact ⟨since ++ [.param e], .inr ⟨since, rfl, h, fun _ => GuardCall.noConfusion⟩⟩
      · rintro ⟨since, ⟨-, h, -⟩ | ⟨earlier, -, h, -⟩⟩
        · cases h
        · exact ⟨earlier, h⟩
    | closed k inject =>
      rw [call, Filter.close_guard, hsound.nodup.mem_erase_iff, ih]
      constructor
      · rintro ⟨hne, since, h⟩
        exact ⟨since ++ [.closed k inject], .inr ⟨since, rfl, h, fun _ heq => by
          cases heq
          exact hne rfl⟩⟩
      · rintro ⟨since, ⟨-, h, -⟩ | ⟨earlier, -, h, hc⟩⟩
        · cases h
        · exact ⟨fun heq => hc inject (heq ▸ rfl), earlier, h⟩

/-- **The frame of an object** tells what was given in the calls since it was opened. -/
theorem missing_frame {calls since : List GuardCall} {key : Nat}
    (h : OpenSince urls calls key since) :
    ((after urls calls).frame key).missing = missingSince urls since := by
  obtain ⟨before, rfl, hkey, -⟩ := h
  have hsound : (after urls before).Sound := sound_empty.run before
  obtain ⟨hgives, hnetworking⟩ := hsound.frame_open
  have hrun : after urls (before ++ .opened :: since) =
      run urls (after urls before).open.2 since := run_append before (.opened :: since)
  have hlt : key < (after urls before).open.2.nextKey := hkey ▸ Nat.lt_succ_self _
  have hgiven : ∀ s, ((after urls (before ++ .opened :: since)).frame key).given.contains s =
      since.any (·.names s) := by
    intro s
    rw [frame, hrun, Bool.eq_iff_iff, List.contains_iff_mem, List.mem_filter,
      and_iff_right s.mem_all, gives_run hlt, ← hkey, show (after urls before).open.1 =
      (after urls before).nextKey from rfl, hgives, Bool.or_false]
  have hnetwork : ((after urls (before ++ .opened :: since)).frame key).networking =
      networkingSince urls since := by
    rw [frame, hrun]
    dsimp only
    rw [networkingIn_run hlt, ← hkey, show (after urls before).open.1 =
      (after urls before).nextKey from rfl, hnetworking, networkingSince]
    cases (since.filterMap GuardCall.address?).getLast? <;> rfl
  rw [ObjectFrame.missing, missingSince, hnetwork]
  simp only [hgiven]

/-! ## Other objects -/

/-- The guards differ at most in whether the object with the given key is open. -/
structure AlikeBut (key : Nat) (g g' : ObjectGuard) : Prop extends g.Alike g' where
  openKeys : ∀ k, k ≠ key → (k ∈ g'.openKeys ↔ k ∈ g.openKeys)

theorem alikeBut_close (key : Nat) (inject : Bool) :
    AlikeBut key g (g.close key inject).2 := by
  refine ⟨alike_close g key inject, fun k hk => ?_⟩
  rw [Filter.close_guard]
  exact List.mem_erase_of_ne hk

/-- A call does the same to guards that are alike but for one object. -/
theorem AlikeBut.call {key : Nat} {g' : ObjectGuard} (h : AlikeBut key g g') (hg : g.Sound)
    (hg' : g'.Sound) (c : GuardCall) : AlikeBut key (g.call urls c) (g'.call urls c) := by
  cases c with
  | opened =>
    refine ⟨h.toAlike.open.2, fun k hk => ?_⟩
    simp only [ObjectGuard.call, ObjectGuard.open, List.mem_cons, h.openKeys k hk, h.nextKey]
  | param e =>
    rw [ObjectGuard.call, ObjectGuard.call, guard_param, guard_param, h.nextKey, h.given, h.address]
    exact ⟨⟨rfl, rfl, rfl⟩, h.openKeys⟩
  | closed k inject =>
    refine ⟨((alike_close g k inject).symm.trans h.toAlike).trans (alike_close g' k inject),
      fun j hj => ?_⟩
    rw [ObjectGuard.call, ObjectGuard.call, Filter.close_guard, Filter.close_guard,
      hg.nodup.mem_erase_iff, hg'.nodup.mem_erase_iff, h.openKeys j hj]

theorem AlikeBut.run {key : Nat} {g' : ObjectGuard} (h : AlikeBut key g g') (hg : g.Sound)
    (hg' : g'.Sound) (calls : List GuardCall) :
    AlikeBut key (run urls g calls) (run urls g' calls) := by
  induction calls generalizing g g' with
  | nil => exact h
  | cons c calls ih => exact ih (h.call hg hg' c) (hg.call c) (hg'.call c)

/-- What is injected for an object does not depend on whether another one is open. -/
theorem AlikeBut.close_params {key k : Nat} {g' : ObjectGuard} (h : AlikeBut key g g')
    (hk : k ≠ key) (inject : Bool) : (g'.close k inject).1 = (g.close k inject).1 := by
  have hopen : g'.openKeys.contains k = g.openKeys.contains k := by
    rw [Bool.eq_iff_iff, List.contains_iff_mem, List.contains_iff_mem]
    exact h.openKeys k hk
  unfold ObjectGuard.close
  rw [hopen]
  split
  · rw [h.toAlike.frame]
  · rfl

/-! ## Closing an object -/

/-- **What is injected when an object is closed**, after any calls of a new guard. The keys of
objects ascend, so no two objects have the same. An object that is open, closed with `inject`, gets
those settings, in the order in which they are written, that no parameter since it was opened has
named, letter case aside: each with its safe value, and networking as the last address since then
says. An object that is not open gets nothing, nor does one that is closed without `inject`. And
whatever follows, what another object gets is not changed by the call that closes this one. -/
theorem close_after (urls : UrlAllowList) (calls : List GuardCall) :
    (keys urls calls).Pairwise (· < ·) ∧
      (∀ key since, OpenSince urls calls key since →
        ((after urls calls).close key true).1 = missingSince urls since) ∧
      (∀ key inject, (∀ since, ¬ OpenSince urls calls key since) ∨ inject = false →
        ((after urls calls).close key inject).1 = []) ∧
      ∀ key inject rest other inject', other ≠ key →
        ((after urls (calls ++ .closed key inject :: rest)).close other inject').1 =
          ((after urls (calls ++ rest)).close other inject').1 := by
  have hsound : (after urls calls).Sound := sound_empty.run calls
  refine ⟨(pairwise_keysFrom {} calls).1, fun key since h => ?_, fun key inject h => ?_,
    fun key inject rest other inject' hne => ?_⟩
  · have hopen := List.contains_iff_mem.2 ((mem_openKeys_iff calls key).2 ⟨since, h⟩)
    rw [close, if_pos hopen, if_pos rfl, missing_frame h]
  · rcases h with hclosed | rfl
    · have hnot : ¬ (after urls calls).openKeys.contains key = true := fun hopen => by
        obtain ⟨since, h⟩ := (mem_openKeys_iff calls key).1 (List.contains_iff_mem.1 hopen)
        exact hclosed since h
      rw [close, if_neg hnot]
    · rw [close]
      split <;> rfl
  · have halike : AlikeBut key (after urls calls) ((after urls calls).close key inject).2 :=
      alikeBut_close key inject
    have hclosed : ((after urls calls).call urls (.closed key inject)).Sound := hsound.call _
    have hleft : after urls (calls ++ .closed key inject :: rest) =
        run urls ((after urls calls).close key inject).2 rest := run_append calls _
    have hright : after urls (calls ++ rest) = run urls (after urls calls) rest :=
      run_append calls rest
    rw [hleft, hright]
    exact (halike.run hsound hclosed rest).close_params hne inject'

/-- A parameter with a name and a value. -/
def paramCall (name value : String) : GuardCall :=
  .param { name := "param", attributes := ⟨[.ofValue "name" name, .ofValue "value" value]⟩ }

/-- The outer one of two objects is closed between two parameters of the inner one. -/
theorem close_after_overlapping :
    let urls := UrlAllowList.startingWith ["http://ok/"]
    let before := [.opened, .opened, paramCall "movie" "http://ok/a"]
    let rest := [paramCall "AUTOPLAY" "1"]
    let calls := before ++ .closed 0 true :: rest
    OpenSince urls calls 1 (calls.drop 2) ∧
      ((after urls calls).close 1 true).1 =
        [("invokeURLs", "false"), ("autostart", "false"), ("allowScriptAccess", "never"),
          ("allowNetworking", "all"), ("enablehref", "false"), ("enablejavascript", "false"),
          ("nojava", "true"), ("AllowHtmlPopupwindow", "false"), ("enableHtmlAccess", "false")] ∧
      (∀ since, ¬ OpenSince urls calls 0 since) ∧ ((after urls calls).close 0 true).1 = [] ∧
      1 ≠ 0 ∧ ((after urls calls).close 1 true).1 =
        ((after urls (before ++ rest)).close 1 true).1 := by
  intro urls before rest calls
  have hopen : OpenSince urls calls 1 (calls.drop 2) :=
    ⟨[.opened], rfl, rfl, fun inject hmem => by simp [calls, before, rest, paramCall] at hmem⟩
  have hclosed : ∀ since, ¬ OpenSince urls calls 0 since := by
    have hkeys : 0 ∉ (after urls calls).openKeys := by decide +kernel
    exact fun since h => hkeys ((mem_openKeys_iff calls 0).2 ⟨since, h⟩)
  obtain ⟨-, hmissing, hnothing, -⟩ := close_after urls calls
  obtain ⟨-, -, -, hother⟩ := close_after urls before
  exact ⟨hopen, (hmissing 1 _ hopen).trans (by decide +kernel), hclosed,
    hnothing 0 true (.inl hclosed), by decide, hother 0 true rest 1 true (by decide)⟩

end ObjectGuard

end MarkupFilter
