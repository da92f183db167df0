import MarkupFilter.Proofs.Filter.ProtectedObjects

/-!
# Objects that may use the network

A parameter lets an object use the network freely only if the last address that was given in the
object is allowed. Other addresses do not count, whether they are allowed or not.

## Main results

* `Filter.TakesParams.lastAddress_of_frame` — what the frame of the innermost object tells.
* `Filter.lastAddress_allowed` — where an object may use the network freely, its last address is
  allowed.
* `Filter.trusting_not_every_address_allowed` — but not every address in it.
-/

set_option autoImplicit false

namespace MarkupFilter

open Event

namespace Filter

variable {f : Filter} {xs before inside after : List Event} {e : Element}

namespace TakesParams

/-! ## How far an object may use the network -/

/-- What is no start of an element brings no start tag, unless it is the end of an element. -/
theorem not_opening_renderOther (hf : f.TakesParams) {c : Content} (hread : c.WellRead)
    (tag : WrittenTag) : .opening tag ∉ Markup.tags (f.renderOther c) := by
  have hinert : ∀ {text : String}, Inert text → .opening tag ∉ Markup.tags text := by
    rintro text ⟨ps, hspells, hnone⟩ htag
    rw [hspells.tags, hnone] at htag
    exact List.not_mem_nil htag
  match c, hread with
  | .fragment, _ => exact hinert .empty
  | .element _, _ => exact hinert .empty
  | .text raw, _ => exact hinert (inert_renderText raw)
  | .comment body, _ => exact hinert (inert_renderComment hf.escape body)
  | .stray _ .conditional, _ => exact hinert inert_renderConditionalEnd
  | .stray _ (.endTag name), hname =>
    intro htag
    rw [renderOther, renderStrayEndTag] at htag
    have htags := tags_renderEndTag hf.blocking hname
      (decideEndTag (f.policy.elementRule? name)) []
    rw [List.map_nil] at htags
    rw [htags, List.map_nil, List.nil_append] at htag
    split at htag
    · cases List.mem_singleton.1 htag
    · exact List.not_mem_nil htag

/-- If the innermost open object may use the network freely, the last address that was given since
the start of any object around it is allowed. -/
theorem lastAddress_of_frame (hf : f.TakesParams) (hxs : Event.WellRead xs)
    (h : Encloses xs before e inside after) {u v : List Event} (hsplit : inside = u ++ v)
    {m key : Nat}
    (hhead : (f.after {} (before ++ .node (.element e) :: u)).objects.head? = some m)
    (hkey : (f.after {} (before ++ .node (.element e) :: u)).key? m = some key)
    (hall : (f.after {} (before ++ .node (.element e) :: u)).guard.networkingIn key = .all) :
    ∃ url, lastAddress u = some url ∧ f.settings.urlAllowList.allows url = true := by
  obtain ⟨hc, hself⟩ := waits_of_encloses hxs h
  obtain ⟨hbefore, hinside⟩ := wellRead_of_encloses hxs h
  have hdated : (f.after {} before).guard.Dated := hf.dated_after ObjectGuard.dated_empty hbefore
  obtain ⟨hobject, hopen⟩ := hf.object_open hxs h hsplit
  have hle := Scene.Sound.key_le (sound_after .empty _) hhead hopen hobject hkey
  rw [after_append, after_cons] at hall
  refine hf.exists_lastAddress hdated hc h.object hself (fun c hcontent => hinside c ?_) hle hall
  rw [hsplit, contents_append]
  exact List.mem_append_left _ hcontent

/-- The same of the value that would be forced on a parameter. -/
theorem lastAddress_of_networking (hf : f.TakesParams) (hxs : Event.WellRead xs)
    (h : Encloses xs before e inside after) {u v : List Event} (hsplit : inside = u ++ v)
    (hall : (f.after {} (before ++ .node (.element e) :: u)).guard.networking = .all) :
    ∃ url, lastAddress u = some url ∧ f.settings.urlAllowList.allows url = true := by
  have hsound : (f.after {} (before ++ .node (.element e) :: u)).Sound := sound_after .empty _
  rw [hsound.networking] at hall
  cases hkey? : (f.after {} (before ++ .node (.element e) :: u)).objects.head?.bind
      (f.after {} (before ++ .node (.element e) :: u)).key? with
  | none =>
    rw [hkey?] at hall
    cases hall
  | some key =>
    rw [hkey?] at hall
    obtain ⟨m, hhead, hkey⟩ := Option.bind_eq_some_iff.1 hkey?
    exact hf.lastAddress_of_frame hxs h hsplit hhead hkey hall

/-- A parameter that lets an object use the network freely, where it was read. -/
theorem lastAddress_of_param (hf : f.TakesParams) (hxs : Event.WellRead xs)
    (h : Encloses xs before e inside after) {u v : List Event} {x : Element}
    (hsplit : inside = u ++ .node (.element x) :: v) {tag : WrittenTag}
    (htag : .opening tag ∈ Markup.tags
      (f.say (f.after {} (before ++ .node (.element e) :: u)) (.node (.element x))))
    (hgives : tag.Gives .allowNetworking .all) :
    ∃ url, lastAddress u = some url ∧ f.settings.urlAllowList.allows url = true := by
  have hread : (Content.element x).WellRead := by
    refine (wellRead_of_encloses hxs h).2 _ ?_
    rw [hsplit, contents_append, contents_node]
    exact List.mem_append_right _ (List.mem_cons_self ..)
  obtain ⟨hsetting, hvalue⟩ := hf.setting?_of_gives _ hread htag hgives
  have hall := SafetySetting.networking_inj hvalue
  have hact : f.after {} (before ++ .node (.element e) :: (u ++ [.node (.element x)])) =
      f.act (f.after {} (before ++ .node (.element e) :: u)) (.node (.element x)) := by
    rw [← List.cons_append, ← List.append_assoc, after_append, after_cons, after_nil]
  have haddress : Event.address? (.node (.element x)) = none :=
    Element.address?_of_setting? hsetting
  obtain ⟨url, hlast, hallows⟩ := hf.lastAddress_of_networking hxs h
    (u := u ++ [.node (.element x)]) (v := v) (by rw [hsplit, List.append_assoc]; rfl)
    (by rw [hact]; exact hall)
  rw [lastAddress_append_singleton, haddress, Option.none_or] at hlast
  exact ⟨url, hlast, hallows⟩

/-- A parameter that lets an object use the network freely, where it is written before the end tag of
that object. -/
theorem lastAddress_of_ended (hf : f.TakesParams) (hxs : Event.WellRead xs)
    (h : Encloses xs before e inside after) {u v w : List Event} (hsplit : inside = u ++ v) {m : Nat}
    (hrow : xs = (before ++ .node (.element e) :: u) ++ .ended m :: w) {tag : WrittenTag}
    (htag : .opening tag ∈ Markup.tags
      (f.say (f.after {} (before ++ .node (.element e) :: u)) (.ended m)))
    (hgives : tag.Gives .allowNetworking .all) :
    ∃ url, lastAddress u = some url ∧ f.settings.urlAllowList.allows url = true := by
  rw [say] at htag
  cases hnode : (f.after {} (before ++ .node (.element e) :: u)).node? m with
  | none =>
    rw [hnode] at htag
    exact absurd htag (hf.not_opening_renderOther (c := .fragment) trivial tag)
  | some y =>
    rw [hnode, Option.map_some, Option.getD_some] at htag
    obtain ⟨e', g, he', rfl⟩ := exists_element_of_node? hnode
    obtain ⟨x, hx, hwaits, -⟩ := hxs.innermost _ _ _ hrow
    obtain rfl := Content.element.inj (Option.some.inj (he'.symm.trans hx))
    have hread : (Content.element e').WellRead := by
      refine hxs.content _ ?_
      rw [hrow, contents_append]
      exact List.mem_append_left _ (List.mem_of_getElem? he')
    have hname : IsTagName (f.judge g e' none false).opened.name.toList :=
      (shaped_judge hf.links g (hread.shaped hwaits.1) none false).name
    obtain ⟨key, hopen, hkey, t, rfl⟩ := exists_of_mem_sayEnd hf.blocking hname _ htag
    obtain ⟨rfl, hvalue⟩ := SafetySetting.eq_of_gives_tag hgives
    have hkey' : (f.after {} (before ++ .node (.element e) :: u)).key? m = some key := by
      rw [Scene.key?, hnode]
      exact hkey
    have hmem : m ∈ (f.after {} (before ++ .node (.element e) :: u)).objects := by
      refine (mem_objects_after (follow_append.1 (hrow ▸ hxs.follow)).1).2 ⟨?_, fun hmem => ?_⟩
      · rw [hkey']
        rfl
      · have honce := hxs.once
        rw [hrow, ends_append, ends_ended] at honce
        exact (List.nodup_append.1 honce).2.2 _ hmem _ (List.mem_cons_self ..) rfl
    have hhead := head_objects_of_ended hf.hasLocalListeners hxs hrow hmem
    exact hf.lastAddress_of_frame hxs h hsplit hhead hkey' (SafetySetting.networking_inj hvalue)

/-- **Where a parameter lets an object use the network freely**, the last address that was given
since the start of any object around it is allowed. -/
theorem lastAddress_of_gives (hf : f.TakesParams) (hxs : Event.WellRead xs)
    (h : Encloses xs before e inside after) {u v : List Event} {x : Event}
    (hsplit : inside ++ [.ended (contents before).length] = u ++ x :: v) {tag : WrittenTag}
    (htag : .opening tag ∈ Markup.tags
      (f.say (f.after {} (before ++ .node (.element e) :: u)) x))
    (hgives : tag.Gives .allowNetworking .all) :
    ∃ url, lastAddress u = some url ∧ f.settings.urlAllowList.allows url = true := by
  have hrow : xs = (before ++ .node (.element e) :: u) ++ x :: (v ++ after) := by
    rw [h.split, ← List.singleton_append (l := after), ← List.append_assoc inside, hsplit]
    simp only [List.append_assoc, List.cons_append]
  -- only the last event is the end tag of the object
  have hwithin : x = .ended (contents before).length ∧ inside = u ∨
      ∃ v', inside = u ++ x :: v' := by
    rcases split_append_singleton hsplit with ⟨v', -, hv'⟩ | ⟨hu, hx, -⟩
    · exact .inr ⟨v', hv'⟩
    · exact .inl ⟨hx.symm, hu⟩
  cases x with
  | node c =>
    obtain ⟨v', hv'⟩ : ∃ v', inside = u ++ .node c :: v' :=
      hwithin.resolve_left fun hx => nomatch hx.1
    by_cases hcontent : ∃ e', c = .element e'
    · obtain ⟨e', rfl⟩ := hcontent
      exact hf.lastAddress_of_param hxs h hv' htag hgives
    · have hread : c.WellRead := by
        refine hxs.content c ?_
        rw [hrow, contents_append, contents_node]
        exact List.mem_append_right _ (List.mem_cons_self ..)
      rw [(act_other _ fun e' he' => hcontent ⟨e', he'⟩).2] at htag
      exact absurd htag (hf.not_opening_renderOther hread tag)
  | ended m =>
    obtain ⟨v', hv'⟩ : ∃ v', inside = u ++ v' := by
      rcases hwithin with ⟨-, rfl⟩ | ⟨v', hv'⟩
      · exact ⟨[], (List.append_nil _).symm⟩
      · exact ⟨_, hv'⟩
    exact hf.lastAddress_of_ended hxs h hv' hrow htag hgives
  | dropped m => exact absurd htag (hf.not_opening_renderOther (c := .fragment) trivial tag)

end TakesParams

/-! ## Addresses that are allowed -/

/-- **An object may use the network freely only for the last address in it.** With the baseline
policy, whatever addresses are allowed: where a parameter lets an object use the network freely, be it
one that was read or one that is written before an end tag, and in the object itself or in another one
inside of it, the last address that any parameter has given since the start of the object is allowed.

*Proof sketch.* What is written there is how far the innermost open object may use the network
(`Scene.Sound.networking`), or the object that ends, which is the innermost as well
(`head_objects_of_ended`). It was opened no sooner than the object around it, so that the guard has
noted the address since that was opened (`TakesParams.exists_lastAddress`). -/
theorem lastAddress_allowed (hpolicy : f.policy = .baseline)
    (hprotect : f.settings.protectObjects = true) (hblocking : f.settings.blockingPrefix = none)
    (hescape : f.settings.escapeCommentMarkup = true) {input text : String}
    (hrun : f.Run input xs text) (h : Encloses xs before e inside after) :
    let s := f.after {} (before ++ [.node (.element e)])
    let region := inside ++ [.ended (contents before).length]
    (∃ start : List Attribute, Markup.tags text = f.toldTags {} before ++
        .opening ⟨e.name, start⟩ :: (f.toldTags s region ++ f.toldTags (f.after s region) after)) ∧
      ∀ u x v tag, region = u ++ x :: v → .opening tag ∈ Markup.tags (f.say (f.after s u) x) →
        tag.Gives .allowNetworking .all →
          ∃ url, lastAddress u = some url ∧ f.settings.urlAllowList.allows url = true := by
  intro s region
  have hf : f.TakesParams := takesParams_of_baseline hpolicy hprotect hblocking hescape
  refine ⟨hf.tags_run hrun h, fun u x v tag hsplit htag hgives => ?_⟩
  have hafter : f.after {} (before ++ .node (.element e) :: u) = f.after s u := by
    rw [List.append_cons, after_append]
  exact hf.lastAddress_of_gives hrun.wellRead h hsplit (hafter ▸ htag) hgives

/-- An attribute with its value without quotes. -/
def bareAttribute (name value : String) : Attribute :=
  { Attribute.ofValue name value with quote := none }

/-- A parameter without quotes. -/
def bareParam (name value : String) : Element :=
  { name := "param", attributes := ⟨[bareAttribute "name" name, bareAttribute "value" value]⟩ }

/-- The tag of a parameter that lets an object use the network freely. -/
def networkingTag : WrittenTag :=
  ⟨"param", [bareAttribute "name" "allowNetworking", .ofValue "value" "all"]⟩

theorem gives_networkingTag : networkingTag.Gives .allowNetworking .all :=
  ⟨by decide, ⟨_, List.mem_cons_self .., by decide, by decide⟩,
    ⟨_, List.mem_cons_of_mem _ (List.mem_cons_self ..), by decide, rfl⟩⟩

/-- The address of an object is allowed, and so a parameter lets it use the network freely. -/
theorem lastAddress_allowed_src :
    trusting.policy = .baseline ∧ trusting.settings.protectObjects = true ∧
      trusting.settings.blockingPrefix = none ∧ trusting.settings.escapeCommentMarkup = true ∧
      Encloses (pieceEvents ("<object><param name=src value=http://a/>" ++
          "<param name=allowNetworking value=0></object>")) [] plainObject
        [.node (.element (bareParam "src" "http://a/")),
          .node (.element (bareParam "allowNetworking" "0"))] [] ∧
      .opening networkingTag ∈ Markup.tags (trusting.say (trusting.after
        (trusting.after {} [.node (.element plainObject)])
          [.node (.element (bareParam "src" "http://a/"))])
            (.node (.element (bareParam "allowNetworking" "0")))) ∧
      ∃ url, lastAddress [.node (.element (bareParam "src" "http://a/"))] = some url ∧
        trusting.settings.urlAllowList.allows url = true := by
  have hpolicy : trusting.policy = .baseline := by
    rw [trusting]
  have hinside : Encloses (pieceEvents ("<object><param name=src value=http://a/>" ++
        "<param name=allowNetworking value=0></object>")) [] plainObject
      [.node (.element (bareParam "src" "http://a/")),
        .node (.element (bareParam "allowNetworking" "0"))] [] :=
    ⟨by decide +kernel, by decide⟩
  have htag : .opening networkingTag ∈ Markup.tags (trusting.say (trusting.after
      (trusting.after {} [.node (.element plainObject)])
        [.node (.element (bareParam "src" "http://a/"))])
          (.node (.element (bareParam "allowNetworking" "0")))) := by
    decide +kernel
  have hallowed := (lastAddress_allowed hpolicy rfl rfl rfl .byPiece hinside).2
  exact ⟨hpolicy, rfl, rfl, rfl, hinside, htag,
    hallowed [.node (.element (bareParam "src" "http://a/"))] _ [.ended 0] _ rfl htag
      gives_networkingTag⟩

/-- An object with two addresses, of which the last one is allowed. -/
def twoAddresses : String :=
  "<object><param name=movie value=http://b/><param name=src value=http://a/>" ++
    "<param name=allowNetworking value=0></object>"

/-- The parameters of that object. -/
def twoAddressParams : List Event :=
  [.node (.element (bareParam "movie" "http://b/")), .node (.element (bareParam "src" "http://a/")),
    .node (.element (bareParam "allowNetworking" "0"))]

/-- Only the last address counts. So an object may use the network freely that was given another
address as well, which is not allowed. -/
theorem trusting_not_every_address_allowed :
    (∀ xs text, trusting.Run twoAddresses xs text → ∃ others : List WrittenTag,
      Markup.tags text = .opening ⟨"object", []⟩ ::
        .opening ⟨"param", (bareParam "movie" "http://b/").attributes.toList⟩ ::
        .opening ⟨"param", (bareParam "src" "http://a/").attributes.toList⟩ ::
        .opening networkingTag :: (others.map .opening ++ [.closing "object"])) ∧
      trusting.settings.urlAllowList.allows "http://b/" = false := by
  refine ⟨fun xs text hrun => ?_, by decide +kernel⟩
  have hf : trusting.TakesParams := takesParams_of_baseline (by rw [trusting]) rfl rfl rfl
  have hevents : treeEvents twoAddresses = pieceEvents twoAddresses ∧
      pieceEvents twoAddresses = .node (.element plainObject) :: (twoAddressParams ++ [.ended 0]) := by
    decide +kernel
  have hinside : Encloses xs [] plainObject twoAddressParams [] := by
    refine ⟨?_, by decide⟩
    cases hrun with
    | byTree => exact hevents.1.trans hevents.2
    | byPiece => exact hevents.2
  have hstarts : trusting.toldTags {} (.node (.element plainObject) :: twoAddressParams) =
      [.opening ⟨"object", []⟩,
        .opening ⟨"param", (bareParam "movie" "http://b/").attributes.toList⟩,
        .opening ⟨"param", (bareParam "src" "http://a/").attributes.toList⟩,
        .opening networkingTag] := by
    decide +kernel
  have hended := hf.tags_ended hrun.wellRead hinside
  rw [List.nil_append] at hended
  generalize missingSettings _ = settings at hended
  refine ⟨settings.map fun p => p.1.tag p.2, ?_⟩
  rw [hf.tags_eq_toldTags hrun, hinside.split, List.nil_append, ← List.cons_append, toldTags_append,
    hstarts, toldTags, toldTags, hended, List.append_nil, List.map_map]
  rfl

end Filter

end MarkupFilter
