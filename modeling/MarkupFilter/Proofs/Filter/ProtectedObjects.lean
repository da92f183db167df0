import MarkupFilter.Proofs.Filter.SettingTags

/-!
# Objects that get an end tag

An object that gets its end tag is protected: for each safety setting that nothing between its tags
names, a parameter is written before its end tag, and parameters that do name one are written with
a safe value. They count for all objects around them, though, so that an object need not have a
parameter that is not inside of another object.

## Main definitions

* `Event.Encloses` — the events of an object, up to its end tag.

## Main results

* `Filter.TakesParams.object_open` — an object is open between its tags.
* `Filter.TakesParams.tags_ended` — what is written at the end of an object.
* `Filter.object_protected` — objects that get their end tags are protected.
* `Filter.object_not_protected_directly` — not by parameters that are directly in them, though.
-/

set_option autoImplicit false

namespace MarkupFilter

open Event

/-! ## Objects from their start to their end tag -/

/-- Among the events, `inside` is what is between the start tag of an object and its end tag, which
is in its place. -/
structure Event.Encloses (xs before : List Event) (e : Element) (inside after : List Event) :
    Prop where
  split : xs = before ++ .node (.element e) :: (inside ++ .ended (contents before).length :: after)
  object : e.isNamed "object" = true

namespace Filter

variable {f : Filter} {xs before inside after : List Event} {e : Element}

/-- An object that gets its end tag has been waiting for it. -/
theorem waits_of_encloses (hxs : Event.WellRead xs) (h : Encloses xs before e inside after) :
    Waits e := by
  obtain ⟨e', he', hwaits, -⟩ := hxs.innermost (before ++ .node (.element e) :: inside) after _
    (by rw [h.split, List.append_assoc, List.cons_append])
  rw [contents_append, contents_node, List.getElem?_append_right (Nat.le_refl _), Nat.sub_self,
    List.getElem?_cons_zero] at he'
  obtain rfl := Content.element.inj (Option.some.inj he')
  exact hwaits

/-- What was read before the end of the object. -/
theorem wellRead_of_encloses (hxs : Event.WellRead xs) (h : Encloses xs before e inside after) :
    (∀ c ∈ contents before, c.WellRead) ∧ ∀ c ∈ contents inside, c.WellRead := by
  have hcontents : contents xs =
      contents before ++ .element e :: (contents inside ++ contents after) := by
    rw [h.split, contents_append, contents_node, contents_append, contents_ended]
  refine ⟨fun c hc => hxs.content c ?_, fun c hc => hxs.content c ?_⟩ <;> rw [hcontents]
  · exact List.mem_append_left _ hc
  · exact List.mem_append_right _ (List.mem_cons_of_mem _ (List.mem_append_left _ hc))

/-- The object is remembered while it is open. -/
theorem node?_of_encloses (u : List Event) :
    (f.after {} (before ++ .node (.element e) :: u)).node? (contents before).length =
      some (f.judge (f.after {} before).guard e none false).opened := by
  have hlength := length_nodes_after (f := f) before
  rw [after_append, after_cons, act, ← hlength]
  have hlt : (f.after {} before).nodes.length <
      ((f.after {} before).enter (f.judge (f.after {} before).guard e none false)).nodes.length := by
    rw [Scene.enter, List.length_append, List.length_singleton]
    exact Nat.lt_succ_self _
  rw [node?_after _ _ hlt, Scene.node?_enter, if_pos rfl]

namespace TakesParams

/-- **The object is open between its tags**, with a key of its own. -/
theorem object_open (hf : f.TakesParams) (hxs : Event.WellRead xs)
    (h : Encloses xs before e inside after) {u v : List Event} (hsplit : inside = u ++ v) :
    (f.after {} (before ++ .node (.element e) :: u)).key? (contents before).length =
        some (f.after {} before).guard.nextKey ∧
      (contents before).length ∈ (f.after {} (before ++ .node (.element e) :: u)).objects := by
  obtain ⟨hc, hself⟩ := waits_of_encloses hxs h
  have hkey : (f.after {} (before ++ .node (.element e) :: u)).key? (contents before).length =
      some (f.after {} before).guard.nextKey := by
    rw [Scene.key?, node?_of_encloses]
    exact (hf.judge_object (f.after {} before).guard hc h.object hself).2.1
  have hrow : xs = (before ++ .node (.element e) :: u) ++
      (v ++ .ended (contents before).length :: after) := by
    rw [h.split, hsplit]
    simp only [List.append_assoc, List.cons_append]
  refine ⟨hkey, (mem_objects_after (follow_append.1 (hrow ▸ hxs.follow)).1).2 ⟨?_, fun hmem => ?_⟩⟩
  · rw [hkey]
    rfl
  · have honce := hxs.once
    rw [hrow, ends_append, ends_append v, ends_ended] at honce
    exact (List.nodup_append.1 honce).2.2 _ hmem _
      (List.mem_append_right _ (List.mem_cons_self ..)) rfl

/-- **What is written at the end of the object**: a parameter for each setting that it was not
given, and its end tag. -/
theorem tags_ended (hf : f.TakesParams) (hxs : Event.WellRead xs)
    (h : Encloses xs before e inside after) :
    Markup.tags (f.say (f.after {} (before ++ .node (.element e) :: inside))
        (.ended (contents before).length)) =
      (missingSettings ((f.after {} (before ++ .node (.element e) :: inside)).guard.frame
        (f.after {} before).guard.nextKey)).map (fun p => .opening (p.1.tag p.2)) ++
          [.closing e.name] := by
  obtain ⟨hc, hself⟩ := waits_of_encloses hxs h
  obtain ⟨hkey, hopen⟩ := hf.object_open hxs h (List.append_nil inside).symm
  obtain ⟨hd, hobjectKey, -⟩ := hf.judge_object (f.after {} before).guard hc h.object hself
  have hread : (Content.element e).WellRead := by
    refine hxs.content _ ?_
    rw [h.split, contents_append]
    exact List.mem_append_right _ (List.mem_cons_self ..)
  have hname : (f.judge (f.after {} before).guard e none false).opened.name = e.name :=
    (sameTag_judge hf.hasLocalListeners _ e none false).name
  have hsound : (f.after {} (before ++ .node (.element e) :: inside)).Sound := sound_after .empty _
  have hdecision : (f.judge (f.after {} before).guard e none false).opened.decision = .allowed := hd
  have hopened : (f.judge (f.after {} before).guard e none false).opened.objectKey? =
      some (f.after {} before).guard.nextKey := hobjectKey
  rw [say, node?_of_encloses, Option.map_some, Option.getD_some, sayEnd, hname, hdecision, hopened,
    hsound.endObject hopen hkey, missing_eq,
    tags_renderEndTag hf.blocking (hread.shaped hc).name, if_pos rfl]

/-- Where no address may use the network freely, none did. -/
theorem internal_after (hf : f.TakesParams) (hnet : f.DeniesNetwork) {xs : List Event}
    (hread : ∀ c ∈ contents xs, c.WellRead) : (f.after {} xs).guard.Internal := by
  have hdenies : ∀ url, f.settings.urlAllowList.allows url = false := by
    rcases hnet with hoff | hnone
    · rw [hf.protect] at hoff
      cases hoff
    · exact hnone
  have hnotes := hf.notesAll_after {} hread
  intro networking opened haddress
  cases hlast : lastAddress xs with
  | none =>
    rw [hnotes.noAddress hlast] at haddress
    cases haddress
  | some url =>
    obtain ⟨opened', -, haddress'⟩ := hnotes.address url hlast
    rw [haddress', ObjectGuard.networkingOf, hdenies url] at haddress
    exact (Prod.mk.inj (Option.some.inj haddress)).1.symm

/-! ### The tags of a filtered text -/

/-- The tags of a filtered text are those that are written for its events. -/
theorem tags_eq_toldTags (hf : f.TakesParams) {input text : String} (hrun : f.Run input xs text) :
    Markup.tags text = f.toldTags {} xs := by
  have hall : xs = [] ++ (xs ++ []) := by simp
  have htold := (tags_told hf.links hf.protect hf.blocking hf.escape hrun.wellRead hall).2
  rw [hrun.eq_told hf.place hf.hasLocalListeners]
  exact htold

/-- The tags of a filtered text, seen from one of its objects. -/
theorem tags_run (hf : f.TakesParams) {input text : String} (hrun : f.Run input xs text)
    (h : Encloses xs before e inside after) :
    ∃ start, Markup.tags text = f.toldTags {} before ++ .opening ⟨e.name, start⟩ ::
      (f.toldTags (f.after {} (before ++ [.node (.element e)]))
          (inside ++ [.ended (contents before).length]) ++
        f.toldTags (f.after (f.after {} (before ++ [.node (.element e)]))
          (inside ++ [.ended (contents before).length])) after) := by
  have hxs := hrun.wellRead
  obtain ⟨hc, hself⟩ := waits_of_encloses hxs h
  have hread : (Content.element e).WellRead := by
    refine hxs.content _ ?_
    rw [h.split, contents_append]
    exact List.mem_append_right _ (List.mem_cons_self ..)
  have hsame := sameTag_judge hf.hasLocalListeners (f.after {} before).guard e none false
  obtain ⟨start, htags, -⟩ := tags_sayStart (f := f)
    (shaped_judge hf.links (f.after {} before).guard (hread.shaped hc) none false)
    (hsame.condition.trans hc) (hf.judge_object (f.after {} before).guard hc h.object hself).1
  rw [hsame.name] at htags
  have hsay : Markup.tags (f.say (f.after {} before) (.node (.element e))) =
      [.opening ⟨e.name, start⟩] := htags
  have hsplit : xs = before ++ ([.node (.element e)] ++
      ((inside ++ [.ended (contents before).length]) ++ after)) := by
    rw [h.split]
    simp
  refine ⟨start, ?_⟩
  rw [hf.tags_eq_toldTags hrun, hsplit, toldTags_append, toldTags_append, toldTags_append, toldTags,
    hsay, toldTags, ← after_append]
  simp

end TakesParams

/-! ## The baseline policy -/

/-- **An object that gets its end tag is protected.** With the baseline policy, and if no address may
use the network freely, for each safety setting that no parameter between the tags of the object
names, a parameter with the safe value of the setting is written right before the end tag; and every
parameter between them that names the setting is written with its safe value, where it stands: in the
object itself or in another one inside of it. This is not said of a parameter whose tag ends in its
name, without quotes, and a slash.

*Proof sketch.* Along the events the guard remembers when each setting was named last
(`TakesParams.notesAll_after`), so that the object is missing a setting at its end just if none of
the events since its start has named it (`TakesParams.gives_after`). A parameter that names a setting
is allowed, keeps its name, and gets a value that is forced (`TakesParams.gives_of_setting?`). -/
theorem object_protected (hpolicy : f.policy = .baseline)
    (hprotect : f.settings.protectObjects = true) (hblocking : f.settings.blockingPrefix = none)
    (hescape : f.settings.escapeCommentMarkup = true) (hnet : f.DeniesNetwork) {input text : String}
    (hrun : f.Run input xs text) (h : Encloses xs before e inside after) :
    let s := f.after {} (before ++ [.node (.element e)])
    ∃ (start : List Attribute) (injected : List WrittenTag),
      Markup.tags text = f.toldTags {} before ++ .opening ⟨e.name, start⟩ ::
        (f.toldTags s inside ++ (injected.map .opening ++ .closing e.name ::
          f.toldTags (f.after s (inside ++ [.ended (contents before).length])) after)) ∧
      ∀ t : SafetySetting,
        ((∀ x ∈ inside, x.setting? ≠ some t) → ∃ tag ∈ injected, tag.Gives t .internal) ∧
        ∀ u x v, inside = u ++ .node (.element x) :: v → x.setting? = some t →
          ¬ (f.judge (f.after s u).guard x none false).element.EndsInName →
            ∃ tag, .opening tag ∈ Markup.tags (f.say (f.after s u) (.node (.element x))) ∧
              tag.Gives t .internal := by
  intro s
  have hf : f.TakesParams := takesParams_of_baseline hpolicy hprotect hblocking hescape
  have hxs := hrun.wellRead
  obtain ⟨hc, hself⟩ := waits_of_encloses hxs h
  obtain ⟨hbefore, hinside⟩ := wellRead_of_encloses hxs h
  have hafter : ∀ w, f.after {} (before ++ .node (.element e) :: w) = f.after s w := fun w => by
    rw [List.append_cons, after_append]
  have hinternal : ∀ w w', inside = w ++ w' → (f.after s w).guard.Internal := by
    intro w w' hw
    rw [← hafter]
    refine hf.internal_after hnet fun c hcontent => hxs.content c ?_
    rw [h.split, hw, contents_append, contents_node, contents_append, contents_append]
    rw [contents_append, contents_node] at hcontent
    rcases List.mem_append.1 hcontent with hmem | hmem
    · exact List.mem_append_left _ hmem
    · rcases List.mem_cons.1 hmem with rfl | hmem
      · exact List.mem_append_right _ (List.mem_cons_self ..)
      · exact List.mem_append_right _ (List.mem_cons_of_mem _
          (List.mem_append_left _ (List.mem_append_left _ hmem)))
  have hnetworking := (hinternal inside [] (List.append_nil _).symm).networkingIn
    (f.after {} before).guard.nextKey
  obtain ⟨start, htags⟩ := hf.tags_run hrun h
  have hended := hf.tags_ended hxs h
  rw [hafter] at hended
  rw [toldTags_append, toldTags, toldTags, List.append_nil, hended] at htags
  refine ⟨start, (missingSettings ((f.after s inside).guard.frame
    (f.after {} before).guard.nextKey)).map fun p => p.1.tag p.2, ?_, fun t => ⟨?_, ?_⟩⟩
  · rw [htags, List.map_map]
    simp only [List.append_assoc, List.singleton_append]
    rfl
  · intro hnone
    have hgives : (f.after s inside).guard.gives (f.after {} before).guard.nextKey t = false := by
      rw [← hafter, after_append, after_cons, Bool.eq_false_iff, Ne,
        hf.gives_after (hf.dated_after ObjectGuard.dated_empty hbefore) hc h.object hself hinside]
      rintro ⟨x, hx, hsetting⟩
      exact hnone x hx hsetting
    refine ⟨t.tag .internal, List.mem_map.2 ⟨(t, .internal), ?_, rfl⟩, t.gives_tag _⟩
    refine List.mem_map.2 ⟨t, List.mem_filter.2 ⟨t.mem_all, ?_⟩, by rw [← hnetworking]; rfl⟩
    simp [ObjectGuard.frame, hgives]
  · intro u x v hsplit hsetting hends
    have hread : (Content.element x).WellRead := by
      refine hinside _ ?_
      rw [hsplit, contents_append, contents_node]
      exact List.mem_append_right _ (List.mem_cons_self ..)
    obtain ⟨tag, htag, hgives⟩ := hf.gives_of_setting? (f.after s u).guard hread hsetting hends
    have hnext := hinternal (u ++ [.node (.element x)]) v (by rw [hsplit, List.append_assoc]; rfl)
    rw [after_append, after_cons, after_nil] at hnext
    rw [show (f.judge (f.after s u).guard x none false).guard.networking = .internal from
      hnext.networking] at hgives
    exact ⟨tag, htag, hgives⟩

/-- An object inside of another one, with a parameter that names a setting. -/
theorem object_protected_nested :
    Filter.baseline.policy = .baseline ∧ Filter.baseline.settings.protectObjects = true ∧
      Filter.baseline.settings.blockingPrefix = none ∧
      Filter.baseline.settings.escapeCommentMarkup = true ∧ Filter.baseline.DeniesNetwork ∧
      ∃ inside, Encloses (pieceEvents "<object><object><param name=nojava></object></object>") []
          { name := "object" } inside [] ∧
        (∃ x ∈ inside, x.setting? = some .nojava) ∧ (∀ x ∈ inside, x.setting? ≠ some .autoplay) ∧
        ∃ injected : List WrittenTag, (∀ tag ∈ injected, .opening tag ∈ Markup.tags
            (Filter.baseline.byPiece "<object><object><param name=nojava></object></object>")) ∧
          ∃ tag ∈ injected, tag.Gives .autoplay .internal := by
  have hpolicy : Filter.baseline.policy = .baseline := policy_baseline
  have hnet := baseline_deniesNetwork
  let x : Element :=
    { name := "param", attributes := ⟨[{ name := "name", value := some "nojava" }]⟩ }
  let inside : List Event :=
    [.node (.element { name := "object" }), .node (.element x), .ended 1]
  have hinside : Encloses (pieceEvents "<object><object><param name=nojava></object></object>") []
      { name := "object" } inside [] :=
    ⟨by decide +kernel, by decide⟩
  have hgiven : ∃ x ∈ inside, x.setting? = some .nojava := by decide +kernel
  have hnone : ∀ x ∈ inside, x.setting? ≠ some .autoplay := by decide +kernel
  obtain ⟨start, injected, htags, hprotected⟩ :=
    object_protected hpolicy rfl rfl rfl hnet .byPiece hinside
  refine ⟨hpolicy, rfl, rfl, rfl, hnet, inside, hinside, hgiven, hnone, injected,
    fun tag htag => ?_, (hprotected .autoplay).1 hnone⟩
  rw [htags]
  simp [htag]

/-- The start tags in a row of tags that are not inside of an object, if `depth` objects have been
started before and have not ended. -/
def outsideObjects : Nat → List ReadTag → List WrittenTag
  | _, [] => []
  | depth, .opening tag :: tags =>
    (if depth = 0 then [tag] else []) ++
      outsideObjects (if AsciiCase.same tag.name "object" then depth + 1 else depth) tags
  | depth, .closing name :: tags =>
    outsideObjects (if AsciiCase.same name "object" then depth - 1 else depth) tags

/-- The settings that are missing where one was given, with their parameters. -/
def othersThanAutoplay : List WrittenTag :=
  (missingSettings ⟨0, [.autoplay], .internal⟩).map fun p => p.1.tag p.2

/-- The tags that are written for an object with a parameter that names a setting. -/
def autoplayTags : List ReadTag :=
  .opening ⟨"object", []⟩ :: .opening ⟨"param",
      [{ name := "name", value := some "autoplay" }, .ofValue "value" "false"]⟩ ::
    (othersThanAutoplay.map .opening ++ [.closing "object"])

/-- An object without attributes. -/
def plainObject : Element := { name := "object" }

/-- A parameter that names a setting, without a value. -/
def autoplayParam : Element :=
  { name := "param", attributes := ⟨[{ name := "name", value := some "autoplay" }]⟩ }

/-- The starts of two objects and a parameter. -/
def nestedStarts : List Event :=
  [.node (.element plainObject), .node (.element plainObject), .node (.element autoplayParam)]

/-- A parameter counts for all objects around it. So a setting that is named in the inner object only
is not given at the end of the outer one, although no parameter that is directly in that object gives
it. -/
theorem object_not_protected_directly :
    (∀ xs text,
        Filter.baseline.Run "<object><object><param name=autoplay></object></object>" xs text →
          Markup.tags text = .opening ⟨"object", []⟩ ::
            (autoplayTags ++ othersThanAutoplay.map .opening ++ [.closing "object"])) ∧
      ¬ ∃ tag ∈ outsideObjects 0 (autoplayTags ++ othersThanAutoplay.map .opening),
        tag.Gives .autoplay .internal := by
  constructor
  · intro xs text hrun
    have hf : Filter.baseline.TakesParams := takesParams_of_baseline policy_baseline rfl rfl rfl
    have hevents : treeEvents "<object><object><param name=autoplay></object></object>" =
          nestedStarts ++ [.ended 1, .ended 0] ∧
        pieceEvents "<object><object><param name=autoplay></object></object>" =
          nestedStarts ++ [.ended 1, .ended 0] := by
      decide +kernel
    have hxs : xs = nestedStarts ++ [.ended 1, .ended 0] := by
      cases hrun with
      | byTree => exact hevents.1
      | byPiece => exact hevents.2
    have htold : Filter.baseline.toldTags {} nestedStarts = .opening ⟨"object", []⟩ ::
          .opening ⟨"object", []⟩ :: [.opening ⟨"param",
            [{ name := "name", value := some "autoplay" }, .ofValue "value" "false"]⟩] ∧
        missingSettings ((Filter.baseline.after {} nestedStarts).guard.frame
            (Filter.baseline.after {} [.node (.element plainObject)]).guard.nextKey) =
          missingSettings ⟨0, [.autoplay], .internal⟩ ∧
        missingSettings ((Filter.baseline.after {} (nestedStarts ++ [.ended 1])).guard.frame
            (Filter.baseline.after {} []).guard.nextKey) =
          missingSettings ⟨0, [.autoplay], .internal⟩ := by
      decide +kernel
    -- both objects are missing the other settings at their ends
    have hinner : Encloses xs [.node (.element plainObject)] plainObject
        [.node (.element autoplayParam)] [.ended 0] := ⟨hxs, by decide⟩
    have houter : Encloses xs [] plainObject
        [.node (.element plainObject), .node (.element autoplayParam), .ended 1] [] :=
      ⟨hxs, by decide⟩
    have hended := hf.tags_ended hrun.wellRead hinner
    have hended' := hf.tags_ended hrun.wellRead houter
    rw [show [.node (.element plainObject)] ++ .node (.element plainObject) ::
      [.node (.element autoplayParam)] = nestedStarts from rfl, htold.2.1,
      show (contents [.node (.element plainObject)]).length = 1 from rfl] at hended
    rw [show [] ++ .node (.element plainObject) :: [.node (.element plainObject),
      .node (.element autoplayParam), .ended 1] = nestedStarts ++ [.ended 1] from rfl,
      htold.2.2, show (contents []).length = 0 from rfl, after_append, after_cons,
      after_nil] at hended'
    rw [hf.tags_eq_toldTags hrun, hxs, toldTags_append, htold.1, toldTags, toldTags, toldTags, hended,
      hended']
    simp only [autoplayTags, othersThanAutoplay, List.map_map, List.cons_append, List.nil_append,
      List.append_nil, List.append_assoc]
    rfl
  · rintro ⟨tag, htag, hgives⟩
    have houtside : outsideObjects 0 (autoplayTags ++ othersThanAutoplay.map .opening) =
        ⟨"object", []⟩ :: othersThanAutoplay := by
      decide +kernel
    rw [houtside, List.mem_cons] at htag
    rcases htag with rfl | htag
    · exact absurd hgives.param (by decide)
    · obtain ⟨p, hp, rfl⟩ := List.mem_map.1 htag
      obtain ⟨heq, -⟩ := SafetySetting.eq_of_gives_tag hgives
      revert hp
      rw [show p = (.autoplay, p.2) from Prod.ext heq.symm rfl]
      cases p.2 <;> decide

end Filter

end MarkupFilter
