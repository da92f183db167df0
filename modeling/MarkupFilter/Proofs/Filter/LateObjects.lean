import MarkupFilter.Proofs.Filter.OpenObjects
import MarkupFilter.Proofs.Filter.Parameters

/-!
# Objects whose end tags come late

How far a parameter lets an object use the network depends on which object is the innermost one that
is open. A filter by piece takes an object for open until its end tag is read; a filter by tree takes
it for open as far as the element around it reaches, and these are not the same if the end tag comes
late. All else that is written does not depend on which objects are open.

## Main definitions

* `Scene.Alike` — scenes that differ in their open objects at most.

## Main results

* `Filter.say_eq_of_heads` — what is written depends on the innermost open object at most.
* `Filter.sameNetworking` — both ways of filtering write the same where no late object is around.
* `Filter.trusting_not_sameNetworking` — not so where one is.
-/

set_option autoImplicit false

namespace MarkupFilter

open Event

namespace ObjectGuard

/-! ## The innermost object -/

/-- How far plugin content may use the network depends on the innermost object and the last
address. -/
theorem Alike.networking {g g' : ObjectGuard} (h : g.Alike g')
    (hhead : g'.openKeys.head? = g.openKeys.head?) : g'.networking = g.networking := by
  have hin : g'.networkingIn = g.networkingIn := funext fun key => by
    rw [networkingIn, networkingIn, h.address]
  unfold ObjectGuard.networking
  rw [hin]
  cases hopen : g.openKeys with
  | nil =>
    rw [hopen] at hhead
    rw [List.head?_eq_none_iff.1 hhead]
  | cons key keys =>
    rw [hopen] at hhead
    obtain ⟨keys', hkeys'⟩ := List.head?_eq_some_iff.1 hhead
    rw [hkeys']

/-- Parameters are recorded alike in guards that are alike, and the same value is forced if the same
object is the innermost. -/
theorem Alike.param {g g' : ObjectGuard} (h : g.Alike g') (urls : UrlAllowList) (e : Element) :
    (g.param urls e).1.Alike (g'.param urls e).1 ∧
      (g'.openKeys.head? = g.openKeys.head? → (g'.param urls e).2 = (g.param urls e).2) := by
  have hurl : ∀ name value?, (g.recordUrl urls name value?).Alike (g'.recordUrl urls name value?) ∧
      (g.recordUrl urls name value?).openKeys = g.openKeys ∧
      (g'.recordUrl urls name value?).openKeys = g'.openKeys := by
    intro name value?
    unfold recordUrl
    split
    · exact ⟨⟨h.nextKey, h.given, by rw [h.nextKey]⟩, rfl, rfl⟩
    · exact ⟨h, rfl, rfl⟩
  unfold ObjectGuard.param
  cases e.attributes.value? "name" with
  | none => exact ⟨h, fun _ => rfl⟩
  | some name =>
    obtain ⟨halike, hkeys, hkeys'⟩ := hurl name (e.attributes.value? "value")
    dsimp only
    cases SafetySetting.ofName? name with
    | none => exact ⟨halike, fun _ => rfl⟩
    | some s =>
      generalize g.recordUrl urls name (e.attributes.value? "value") = k at halike hkeys
      generalize g'.recordUrl urls name (e.attributes.value? "value") = k' at halike hkeys'
      have hrecorded : (k.recordSetting s).Alike (k'.recordSetting s) :=
        ⟨halike.nextKey, by simp only [recordSetting, halike.given, halike.nextKey],
          halike.address⟩
      refine ⟨hrecorded, fun hhead => ?_⟩
      dsimp only
      have hkey : k'.openKeys.head? = k.openKeys.head? := by
        rw [hkeys, hkeys', hhead]
      rw [hrecorded.networking hkey]

end ObjectGuard

namespace Filter

variable {f : Filter}

/-- Elements are protected alike where the guards are alike. -/
theorem protect_same {g g' : ObjectGuard} (h : g.Alike g') (x : Element) (d : Decision) :
    (f.protect g' x d).1 = (f.protect g x d).1 ∧
      (f.protect g x d).2.1.Alike (f.protect g' x d).2.1 ∧
      (g'.openKeys.head? = g.openKeys.head? → (f.protect g' x d).2.2 = (f.protect g x d).2.2) := by
  unfold protect
  split
  · split
    · exact ⟨rfl, h.param _ x⟩
    · split
      · exact ⟨rfl, h, fun _ => rfl⟩
      · split
        · exact ⟨congrArg some h.open.1, h.open.2, fun _ => rfl⟩
        · exact ⟨rfl, h, fun _ => rfl⟩
  · exact ⟨rfl, h, fun _ => rfl⟩

/-- The verdicts of guards that are alike are the same, but for the value of a parameter if another
object is the innermost. -/
theorem judge_same {g g' : ObjectGuard} (h : g.Alike g') (e : Element) :
    (f.judge g' e none false).opened = (f.judge g e none false).opened ∧
      (f.judge g e none false).guard.Alike (f.judge g' e none false).guard ∧
      (g'.openKeys.head? = g.openKeys.head? →
        f.sayStart (f.judge g' e none false) = f.sayStart (f.judge g e none false)) := by
  obtain ⟨hkey, hguard, helement⟩ :=
    protect_same (f := f) h (f.decide e none false).2 (f.decide e none false).1
  have hname : ∀ k, (f.judge k e none false).element.name = (f.decide e none false).2.name :=
    fun k => (sameTag_protect f k _ _).name
  refine ⟨?_, hguard, fun hhead => ?_⟩
  · rw [Verdict.opened, Verdict.opened, hname, hname]
    exact congrArg _ hkey
  · rw [sayStart, sayStart, judge]
    dsimp only
    rw [helement hhead]
    rfl

end Filter

/-! ## Scenes that are alike -/

/-- The scenes have the same nodes and guards that are alike. -/
structure Scene.Alike (s s' : Scene) : Prop where
  nodes : s'.nodes = s.nodes
  guard : s.guard.Alike s'.guard

namespace Scene.Alike

variable {s s' s'' : Scene} {f : Filter}

theorem refl (s : Scene) : s.Alike s :=
  ⟨rfl, .refl _⟩

theorem symm (h : s.Alike s') : s'.Alike s :=
  ⟨h.nodes.symm, h.guard.symm⟩

theorem trans (h : s.Alike s') (h' : s'.Alike s'') : s.Alike s'' :=
  ⟨h'.nodes.trans h.nodes, h.guard.trans h'.guard⟩

theorem node? (h : s.Alike s') (number : Nat) : s'.node? number = s.node? number := by
  rw [Scene.node?, Scene.node?, h.nodes]

theorem key? (h : s.Alike s') (number : Nat) : s'.key? number = s.key? number := by
  rw [Scene.key?, Scene.key?, h.node?]

/-- The end of an element changes its frame only. -/
theorem leave (s : Scene) (number : Nat) : s.Alike (s.leave number) := by
  refine ⟨rfl, ?_⟩
  rw [Scene.leave, Filter.endObject_guard]
  exact ⟨rfl, rfl, rfl⟩

theorem act (h : s.Alike s') (x : Event) : (f.act s x).Alike (f.act s' x) := by
  cases x with
  | node c =>
    by_cases hcontent : ∃ e, c = .element e
    · obtain ⟨e, rfl⟩ := hcontent
      obtain ⟨hopened, hguard, -⟩ := Filter.judge_same (f := f) h.guard e
      refine ⟨?_, hguard⟩
      rw [Filter.act, Filter.act, Scene.enter, Scene.enter, h.nodes, hopened]
    · have hother : ∀ e, c ≠ .element e := fun e he => hcontent ⟨e, he⟩
      rw [(Filter.act_other s hother).1, (Filter.act_other s' hother).1]
      exact ⟨congrArg (· ++ [none]) h.nodes, h.guard⟩
  | ended number => exact (leave s number).symm.trans (h.trans (leave s' number))
  | dropped number => exact (leave s number).symm.trans (h.trans (leave s' number))

/-- Late ends do not count. -/
theorem after_timely (h : s.Alike s') (xs : List Event) :
    (f.after s (timely xs)).Alike (f.after s' xs) := by
  induction xs generalizing s s' with
  | nil => exact h
  | cons x xs ih =>
    cases x with
    | dropped number =>
      rw [timely_dropped]
      exact ih (h.trans (leave s' number))
    | node c =>
      rw [timely_cons rfl]
      exact ih (h.act (.node c))
    | ended number =>
      rw [timely_cons rfl]
      exact ih (h.act (.ended number))

/-- Rows of events that are the same but for late ends lead to scenes that are alike. -/
theorem of_timely_eq {xs ys : List Event} (h : timely xs = timely ys) :
    (f.after {} xs).Alike (f.after {} ys) :=
  (after_timely (f := f) (.refl {}) xs).symm.trans (h ▸ after_timely (.refl {}) ys)

end Scene.Alike

namespace Filter

variable {f : Filter}

/-- What is written for an event in scenes that are alike: the same, if the same object is the
innermost, or if the event is the end of an element that is open in both. -/
theorem say_eq_of_heads {s s' : Scene} (h : s.Alike s') {x : Event}
    (hstart : x.content? = none ∨ s'.guard.openKeys.head? = s.guard.openKeys.head?)
    (hend : ∀ number key, x = .ended number → s.key? number = some key →
      key ∈ s.guard.openKeys ∧ key ∈ s'.guard.openKeys) : f.say s x = f.say s' x := by
  cases x with
  | node c =>
    have hhead := hstart.resolve_left fun h => nomatch h
    by_cases hcontent : ∃ e, c = .element e
    · obtain ⟨e, rfl⟩ := hcontent
      exact ((judge_same h.guard e).2.2 hhead).symm
    · have hother : ∀ e, c ≠ .element e := fun e he => hcontent ⟨e, he⟩
      rw [(act_other s hother).2, (act_other s' hother).2]
  | ended number =>
    rw [say, say, h.node?]
    cases hnode : s.node? number with
    | none => rfl
    | some y =>
      have hkey : s.key? number = y.objectKey? := by rw [Scene.key?, hnode]; rfl
      rw [Option.map_some, Option.map_some, Option.getD_some, Option.getD_some, sayEnd, sayEnd]
      cases hobject : y.objectKey? with
      | none => rfl
      | some key =>
        obtain ⟨hopen, hopen'⟩ := hend number key rfl (hkey.trans hobject)
        exact congrArg _ (h.guard.close_params hopen hopen').symm
  | dropped number => rfl

/-! ## Both ways of filtering -/

/-- An object that has not ended before an event in the tree has not ended before it in the
pieces. -/
theorem objects_subset {before before' : List Event} (hfollow : Follow 0 before)
    (hfollow' : Follow 0 before') (htimely : timely before' = timely before)
    (hdropped : ∀ number, .dropped number ∈ before' → .dropped number ∈ before) :
    ∀ number ∈ (f.after {} before).objects, number ∈ (f.after {} before').objects := by
  intro number hmem
  obtain ⟨hkey, hends⟩ := (mem_objects_after hfollow).1 hmem
  rw [mem_ends, not_or] at hends
  refine (mem_objects_after hfollow').2 ⟨?_, ?_⟩
  · rw [(Scene.Alike.of_timely_eq (f := f) htimely).symm.key?]
    exact hkey
  · rw [mem_ends, not_or]
    refine ⟨fun hended => hends.1 ?_, fun hmem => hends.2 (hdropped number hmem)⟩
    have htimely' : Event.ended number ∈ timely before' := List.mem_filter.2 ⟨hended, rfl⟩
    rw [htimely] at htimely'
    exact (List.mem_filter.1 htimely').1

/-- The innermost object of the pieces is that of the tree, unless it gets a late end tag. -/
theorem head_objects_eq {before before' : List Event} (hfollow : Follow 0 before)
    (hfollow' : Follow 0 before') (htimely : timely before' = timely before)
    (hdropped : ∀ number, .dropped number ∈ before' → .dropped number ∈ before)
    (hlate : ∀ number, (f.after {} before').objects.head? = some number →
      .dropped number ∉ before) :
    (f.after {} before').objects.head? = (f.after {} before).objects.head? := by
  have hsound : (f.after {} before).Sound := sound_after .empty before
  have hsound' : (f.after {} before').Sound := sound_after .empty before'
  have hsubset := objects_subset (f := f) hfollow hfollow' htimely hdropped
  cases hobjects : (f.after {} before').objects with
  | nil =>
    rw [hobjects] at hsubset
    rw [List.eq_nil_iff_forall_not_mem.2 fun n hn => List.not_mem_nil (hsubset n hn)]
  | cons n objects =>
    have hn : n ∈ (f.after {} before').objects := hobjects ▸ List.mem_cons_self ..
    obtain ⟨hkey, hends⟩ := (mem_objects_after hfollow').1 hn
    have hopen : n ∈ (f.after {} before).objects := by
      refine (mem_objects_after hfollow).2 ⟨?_, fun hmem => ?_⟩
      · rw [(Scene.Alike.of_timely_eq (f := f) htimely).key?]
        exact hkey
      · rcases mem_ends.1 hmem with hended | hlast
        · refine hends (mem_ends.2 (.inl ?_))
          have hmem : Event.ended n ∈ timely before := List.mem_filter.2 ⟨hended, rfl⟩
          rw [← htimely] at hmem
          exact (List.mem_filter.1 hmem).1
        · exact hlate n (by rw [hobjects]; rfl) hlast
    obtain ⟨m, inner, hinner⟩ := List.exists_cons_of_ne_nil (List.ne_nil_of_mem hopen)
    have hdescending := hsound.descending
    have hdescending' := hsound'.descending
    have hm := hsubset m (hinner ▸ List.mem_cons_self ..)
    rw [hinner] at hdescending hopen ⊢
    rw [hobjects] at hdescending' hm
    rcases List.mem_cons.1 hopen with rfl | hinside
    · rfl
    · -- the innermost object of the tree would be inside of that of the pieces
      have hlt := (List.pairwise_cons.1 hdescending).1 n hinside
      rcases List.mem_cons.1 hm with rfl | houtside
      · exact absurd hlt (Nat.lt_irrefl _)
      · exact absurd hlt (Nat.lt_asymm ((List.pairwise_cons.1 hdescending').1 m houtside))

/-- What is written for an event of the tree, and for the same event among those of the pieces. -/
theorem say_eq {xs before after before' after' : List Event} {x : Event} (hxs : Orderly xs)
    (hsplit : xs = before ++ x :: after) {ys : List Event} (hys : Orderly ys)
    (hsplit' : ys = before' ++ x :: after') (htimely : timely before' = timely before)
    (hstart : x.content? = none ∨
      (f.after {} before').objects.head? = (f.after {} before).objects.head?) :
    f.say (f.after {} before) x = f.say (f.after {} before') x := by
  have halike : (f.after {} before).Alike (f.after {} before') :=
    .of_timely_eq htimely.symm
  -- an element that ends here has not ended before
  have hopen : ∀ zs, Orderly zs → ∀ u v, zs = u ++ x :: v → ∀ number key, x = .ended number →
      (f.after {} u).key? number = some key → key ∈ (f.after {} u).guard.openKeys := by
    rintro zs hzs u v rfl number key rfl hkey
    have hnot : number ∉ ends u := by
      have honce := hzs.once
      rw [ends_append, ends_ended] at honce
      exact fun hmem => (List.nodup_append.1 honce).2.2 number hmem number
        (List.mem_cons_self ..) rfl
    have hmem := (mem_objects_after (f := f) (follow_append.1 hzs.follow).1).2
      ⟨by rw [hkey]; rfl, hnot⟩
    obtain ⟨key', hkey', hopen⟩ := (sound_after .empty u).exists_key hmem
    obtain rfl : key' = key := Option.some.inj (hkey'.symm.trans hkey)
    exact hopen
  refine say_eq_of_heads halike (hstart.imp_right fun hhead => ?_) fun number key hended hkey =>
    ⟨hopen xs hxs _ _ hsplit number key hended hkey, hopen ys hys _ _ hsplit' number key hended ?_⟩
  · rw [(sound_after (f := f) .empty before').head_openKeys,
      (sound_after (f := f) .empty before).head_openKeys, hhead,
      show (f.after {} before').key? = (f.after {} before).key? from funext halike.key?]
  · rw [halike.key?]
    exact hkey

/-- The end of an element that is no object changes nothing. -/
theorem leave_of_key_none {s : Scene} (hs : s.Sound) {number : Nat} (hkey : s.key? number = none) :
    s.leave number = s := by
  have hnot : number ∉ s.objects := by
    intro hmem
    obtain ⟨key, hsome, -⟩ := hs.exists_key hmem
    rw [hkey] at hsome
    cases hsome
  rw [Scene.leave, hkey, List.erase_of_not_mem hnot]
  rfl

/-- If no object ends late, late ends do not count for what is written. -/
theorem told_timely {s : Scene} (hs : s.Sound) {xs : List Event}
    (hxs : ∀ number, .dropped number ∈ xs → (f.after s xs).key? number = none) :
    f.told s (timely xs) = f.told s xs := by
  induction xs generalizing s with
  | nil => rfl
  | cons x xs ih =>
    have hrest := ih (sound_act hs x) fun number hmem => hxs number (List.mem_cons_of_mem _ hmem)
    cases x with
    | dropped number =>
      have hnone : s.key? number = none := by
        have hlast := hxs number (List.mem_cons_self ..)
        cases hkey : s.key? number with
        | none => rfl
        | some key =>
          rw [key?_after s _ (Scene.lt_of_key? hkey), hkey] at hlast
          cases hlast
      have hact : f.act s (.dropped number) = s := leave_of_key_none hs hnone
      rw [hact] at hrest
      rw [timely_dropped, hrest, told_cons, hact]
      exact String.empty_append.symm
    | node c => rw [timely_cons rfl, told_cons, told_cons, hrest]
    | ended number => rw [timely_cons rfl, told_cons, told_cons, hrest]

/-- **Both ways of filtering write the same for the same events**, whatever addresses are allowed:
the same start tags, parameters and end tags, one for one. Only the value that is forced on a
parameter may differ, and only where the innermost object that is open in the order of the pieces
gets its end tag late.

*Proof sketch.* The rows of events are the same but for late ends, which come sooner in the order of
the tree (`Event.Ahead`); so before the same event the same nodes were seen, and the guards differ in
what is open at most. What is written depends on no more than the innermost object that is open
(`say_eq_of_heads`). An object that is open in the tree is open in the pieces as well, and only a
late end tag makes a difference (`head_objects_eq`). -/
theorem sameNetworking (hf : f.policy.HasLocalListeners) (hp : f.policy.IgnoresPlace)
    (input : String) :
    f.byTree input = f.told {} (treeEvents input) ∧
      f.byPiece input = f.told {} (pieceEvents input) ∧
      timely (treeEvents input) = timely (pieceEvents input) ∧
      (∀ before x after, treeEvents input = before ++ x :: after → x.inTime = true →
        ∃ before' after', pieceEvents input = before' ++ x :: after' ∧
          timely before' = timely before ∧
          ((x.content? = none ∨ ∀ number, (f.after {} before').objects.head? = some number →
              .dropped number ∉ pieceEvents input) →
            f.say (f.after {} before) x = f.say (f.after {} before') x)) ∧
      ((∀ number, .dropped number ∈ pieceEvents input →
          (f.after {} (pieceEvents input)).key? number = none) →
        f.byTree input = f.byPiece input) := by
  have hahead := ahead_treeEvents input
  have htree := byTree_eq_told hp hf input
  have hpiece := byPiece_eq_told hp hf input
  refine ⟨htree, hpiece, hahead.timely_eq, ?_, fun hlate => ?_⟩
  · intro before x after hsplit hx
    obtain ⟨before', after', hsplit', htimely, hdropped⟩ := hahead.split hx hsplit
    have hxs := (wellRead_treeEvents input).toOrderly
    have hys := (wellRead_pieceEvents input).toOrderly
    refine ⟨before', after', hsplit', htimely, fun hstart => ?_⟩
    refine say_eq hxs hsplit hys hsplit' htimely (hstart.imp_right fun hlate => ?_)
    refine head_objects_eq ?_ ?_ htimely hdropped
      fun number hhead hmem => hlate number hhead ?_
    · exact (follow_append.1 (hsplit ▸ hxs.follow)).1
    · exact (follow_append.1 (hsplit' ▸ hys.follow)).1
    · refine hahead.perm.mem_iff.1 ?_
      rw [hsplit]
      exact List.mem_append_left _ hmem
  · have halike : (f.after {} (treeEvents input)).Alike (f.after {} (pieceEvents input)) :=
      .of_timely_eq hahead.timely_eq
    rw [htree, hpiece, ← told_timely .empty hlate, ← hahead.timely_eq, told_timely .empty]
    intro number hmem
    rw [halike.symm.key?]
    exact hlate number (hahead.perm.mem_iff.1 hmem)

/-- An end tag that comes late makes no difference if it is not that of an object. -/
theorem trusting_sameNetworking :
    trusting.policy.HasLocalListeners ∧ trusting.policy.IgnoresPlace ∧
      trusting.byTree "<object><b><param name=src value=http://a/></object></b>" =
        trusting.told {} (treeEvents "<object><b><param name=src value=http://a/></object></b>") ∧
      trusting.byPiece "<object><b><param name=src value=http://a/></object></b>" =
        trusting.told {} (pieceEvents "<object><b><param name=src value=http://a/></object></b>") ∧
      timely (treeEvents "<object><b><param name=src value=http://a/></object></b>") =
        timely (pieceEvents "<object><b><param name=src value=http://a/></object></b>") := by
  have hpolicy : trusting.policy = .baseline := by
    rw [trusting]
  have hf : trusting.policy.HasLocalListeners := by
    rw [hpolicy]
    exact Policy.baseline_hasLocalListeners
  have hp : trusting.policy.IgnoresPlace := by
    rw [hpolicy]
    exact Policy.baseline_ignoresPlace
  obtain ⟨htree, hpiece, htimely, -⟩ :=
    sameNetworking hf hp "<object><b><param name=src value=http://a/></object></b>"
  exact ⟨hf, hp, htree, hpiece, htimely⟩

/-- The `</object>` comes late, after the end of the element around the object. The pieces take the
object for open until then, so that its address is the last one given in it; in the tree there is no
object open around the parameters. -/
theorem trusting_not_sameNetworking :
    trusting.byTree ("<b><object></b><param name=src value=http://a/>" ++
        "<param name=allowNetworking value=x></object>") =
      "<b><object></b><param name=src value=http://a/>" ++
        "<param name=allowNetworking value=\"internal\">" ∧
    trusting.byPiece ("<b><object></b><param name=src value=http://a/>" ++
        "<param name=allowNetworking value=x></object>") =
      "<b><object></b><param name=src value=http://a/>" ++
        "<param name=allowNetworking value=\"all\">" := by
  decide +kernel

end Filter

end MarkupFilter
