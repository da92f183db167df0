import MarkupFilter.Proofs.Filter.Inert
import MarkupFilter.Proofs.Filter.Parts
import MarkupFilter.Proofs.Filter.Settling

/-!
# Parameters that give safety settings

A plugin reads its safety settings off the parameters of its object. Every parameter in a filtered
text whose name is, as it is written, that of a setting has a safe value, whether it was in the input
or added by the guard. A name written with character references is not seen by the guard, although a
browser takes it for the same name.

## Main definitions

* `SafetySetting.GivenSafely`, `SafeParam` — a parameter that names a setting has a safe value.
* `Filter.Reread` — the attributes of a written start tag, as they are read again.
* `SafetySetting.tag` — the tag of a parameter that the guard adds.
* `Filter.Safe` — all parameters in a text are safe.

## Main results

* `Filter.forced_protect` — the object guard forces a safe value.
* `Filter.Writes.safe` — what a filter writes is safe.
* `Filter.safeParam_filtered` — all parameters in a filtered text are safe.
* `Filter.baseline_not_safeParam_unescape` — not so if references in names are read.
-/

set_option autoImplicit false

namespace MarkupFilter

open Reader

/-! ## Safe parameters -/

/-- The attributes give the setting a value, and none that is not safe. -/
def SafetySetting.GivenSafely (s : SafetySetting) (as : List Attribute) : Prop :=
  (∃ a ∈ as, AsciiCase.same a.name "value" = true) ∧
    ∀ a ∈ as, AsciiCase.same a.name "value" = true → ∃ n : Networking, a.value = some (s.value n)

/-- If the start tag is that of a parameter and names a setting, it gives the setting safely.
`setting?` tells which setting a written name stands for. -/
def SafeParam (setting? : String → Option SafetySetting) (tag : WrittenTag) : Prop :=
  AsciiCase.same tag.name "param" = true → ∀ a ∈ tag.attributes,
    AsciiCase.same a.name "name" = true → ∀ s, a.value.bind setting? = some s →
      s.GivenSafely tag.attributes

/-! ## Judged elements -/

namespace Filter

variable {f : Filter}

/-- **The object guard forces a safe value** on a parameter that names a setting: there is a value
then, it is enabled, and it is in quotes. -/
theorem forced_protect (hprotect : f.settings.protectObjects = true) (g : ObjectGuard) {e : Element}
    (hparam : e.isNamed "param" = true) {s : SafetySetting}
    (hs : settingOf? (f.protect g e .allowed).2.2.attributes = some s) :
    (f.protect g e .allowed).2.2.attributes.contains "value" = true ∧
      ∀ a ∈ (f.protect g e .allowed).2.2.attributes.toList, a.key = AsciiCase.lower "value" →
        a.Holds (s.value (f.protect g e .allowed).2.1.networking) ∧ a.enabled = true := by
  rw [protect_param hprotect g hparam] at hs ⊢
  have heq := param_eq f.settings.urlAllowList g e
  rw [settingOf?_param] at hs
  rw [hs] at heq
  rw [heq]
  exact ⟨(Attributes.contains_force ..).1, fun a ha hkey => Attributes.holds_force ha hkey⟩

/-! ## Live start tags -/

end Filter

/-- The names of settings do not end in a slash. -/
theorem SafetySetting.ofName?_slash (name : String) : ofName? (name ++ "/") = none := by
  refine List.find?_eq_none.2 fun s _ hsame => ?_
  have hlast : (AsciiCase.lower s.name).toList.getLast? = some '/' := by
    rw [(AsciiCase.same_iff ..).1 hsame, AsciiCase.toList_lower, String.toList_append]
    simp
  cases s <;> exact absurd hlast (by decide)

namespace Attribute

/-- A written attribute that names a setting when it is read again named the setting before. -/
theorem Shaped.ofName?_of_readAs {a b : Attribute} (ha : a.Shaped) (h : a.asWritten.ReadAs b)
    {s : SafetySetting} (hs : b.value.bind SafetySetting.ofName? = some s) :
    a.value.bind SafetySetting.ofName? = some s := by
  rcases h with rfl | ⟨-, -, value, -, hvalue⟩
  · rw [ha.value_asWritten] at hs
    cases hvalue : a.value with
    | none =>
      rw [hvalue] at hs
      cases hs
    | some value =>
      rw [hvalue, Option.map_some, Option.bind_some, SafetySetting.ofName?_escapeAngles] at hs
      exact hs
  · rw [hvalue, Option.bind_some, SafetySetting.ofName?_slash] at hs
    cases hs

/-- A value in quotes is read again as it was, if nothing in it is escaped. -/
theorem Holds.value_of_readAs {a b : Attribute} {value : String} (ha : a.Holds value)
    (hwritten : renderValue a.quote value = value) (h : a.asWritten.ReadAs b) :
    b.value = some value := by
  rcases h with rfl | ⟨-, hquote, -⟩
  · rw [asWritten, ha.1, Option.map_some, hwritten]
  · exact absurd hquote ha.2

end Attribute

namespace Filter

variable {f : Filter}

/-- The attributes of a written start tag, as they are read again. -/
def Reread (x : Element) (bs : List Attribute) : Prop :=
  List.Forall₂ Attribute.ReadAs (x.attributes.enabled.map Attribute.asWritten) bs

namespace Reread

variable {x : Element} {bs : List Attribute} {b : Attribute}

/-- Every attribute that is read again is that of an attribute before. -/
theorem exists_of_mem (h : Reread x bs) (hb : b ∈ bs) :
    ∃ a ∈ x.attributes.toList, a.asWritten.ReadAs b ∧ ∀ name, AsciiCase.same b.name name = true →
      a.key = AsciiCase.lower name := by
  obtain ⟨w, hw, hwb⟩ := (Attribute.ReadAs.exists_of_mem h).2 b hb
  obtain ⟨a, ha, rfl⟩ := List.mem_map.1 hw
  refine ⟨a, (List.mem_filter.1 ha).1, hwb, fun name hsame => ?_⟩
  rw [a.key_eq, ← a.name_asWritten, ← hwb.name]
  exact (AsciiCase.same_iff ..).1 hsame

/-- A parameter that names a setting when it is read again named it before. -/
theorem settingOf? (h : Reread x bs) (hx : x.Shaped) (hb : b ∈ bs)
    (hname : AsciiCase.same b.name "name" = true) {s : SafetySetting}
    (hs : b.value.bind SafetySetting.ofName? = some s) :
    Filter.settingOf? x.attributes = some s := by
  obtain ⟨a, ha, hab, hkey⟩ := h.exists_of_mem hb
  rw [settingOf?_eq, Attributes.get?_of_mem hx.keys ha (hkey "name" hname)]
  exact (hx.attributes a ha).ofName?_of_readAs hab hs

/-- A value that was forced is read again. -/
theorem value (h : Reread x bs) (hx : x.Shaped) {s : SafetySetting} {n : Networking}
    (hholds : ∀ a ∈ x.attributes.toList, a.key = AsciiCase.lower "value" →
      a.Holds (s.value n) ∧ a.enabled = true)
    (hb : b ∈ bs) (hvalue : AsciiCase.same b.name "value" = true) :
    b.value = some (s.value n) := by
  obtain ⟨a, ha, hab, hkey⟩ := h.exists_of_mem hb
  refine (hholds a ha (hkey "value" hvalue)).1.value_of_readAs ?_ hab
  refine renderValue_eq_self (s.noAngles_value n) fun q hq => ?_
  rcases (hx.attributes a ha).quote_cases with hquote | hquote | hquote
  · rw [hquote] at hq
    cases hq
  · obtain rfl : '"' = q := Option.some.inj (hquote.symm.trans hq)
    exact (s.value_noQuotes n).1
  · obtain rfl : '\'' = q := Option.some.inj (hquote.symm.trans hq)
    exact (s.value_noQuotes n).2

/-- There is a value again if there was one that is enabled. -/
theorem exists_value (h : Reread x bs) (hcontains : x.attributes.contains "value" = true)
    (henabled : ∀ a ∈ x.attributes.toList, a.key = AsciiCase.lower "value" → a.enabled = true) :
    ∃ b ∈ bs, AsciiCase.same b.name "value" = true := by
  obtain ⟨a, ha, hkey⟩ := List.mem_map.1 ((Attributes.contains_iff ..).1 hcontains)
  have hwritten : a.asWritten ∈ x.attributes.enabled.map Attribute.asWritten :=
    List.mem_map_of_mem (List.mem_filter.2 ⟨ha, henabled a ha hkey⟩)
  obtain ⟨b, hb, hab⟩ := (Attribute.ReadAs.exists_of_mem h).1 _ hwritten
  refine ⟨b, hb, (AsciiCase.same_iff ..).2 ?_⟩
  rw [hab.name, Attribute.name_asWritten, ← a.key_eq, hkey]

end Reread

/-- The start tag of an allowed parameter is safe, as it is read again. -/
theorem safeParam_protect (hprotect : f.settings.protectObjects = true) (g : ObjectGuard)
    {e x : Element} (hx : (f.protect g e .allowed).2.2 = x) (hshaped : x.Shaped)
    {bs : List Attribute} (hread : Reread x bs) :
    SafeParam SafetySetting.ofName? ⟨x.name, bs⟩ := by
  intro hparam b hb hname s hs
  have hnamed : e.isNamed "param" = true := by
    rw [Element.isNamed, (sameTag_protect f g e .allowed).name.symm, hx]
    exact hparam
  have hsetting := hread.settingOf? hshaped hb hname hs
  rw [← hx] at hsetting
  obtain ⟨hcontains, hholds⟩ := forced_protect hprotect g hnamed hsetting
  rw [hx] at hcontains hholds
  exact ⟨hread.exists_value hcontains fun a ha hkey => (hholds a ha hkey).2,
    fun c hc hvalue => ⟨_, hread.value hshaped hholds hc hvalue⟩⟩

/-! ## Safe texts -/

/-- The text spells pieces, and the parameters among them are safe. -/
def Safe (text : String) : Prop :=
  ∃ ps, Spells ps text ∧ ∀ tag, .opening tag ∈ ps.filterMap Piece.tag? →
    SafeParam SafetySetting.ofName? tag

namespace Safe

theorem of_inert {text : String} (h : Inert text) : Safe text := by
  obtain ⟨ps, hspells, hnone⟩ := h
  refine ⟨ps, hspells, fun tag htag => ?_⟩
  rw [hnone] at htag
  cases htag

theorem append {s t : String} (hs : Safe s) (ht : Safe t) : Safe (s ++ t) := by
  obtain ⟨ps, hps, hsafe⟩ := hs
  obtain ⟨qs, hqs, hsafe'⟩ := ht
  refine ⟨ps ++ qs, hps.append hqs, fun tag htag => ?_⟩
  rw [List.filterMap_append, List.mem_append] at htag
  exact htag.elim (hsafe tag) (hsafe' tag)

/-- The parameters that are read in a safe text are safe. -/
theorem safeParam {text : String} (h : Safe text) {tag : WrittenTag}
    (htag : .opening tag ∈ Markup.tags text) : SafeParam SafetySetting.ofName? tag := by
  obtain ⟨ps, hspells, hsafe⟩ := h
  rw [hspells.tags] at htag
  exact hsafe tag htag

end Safe

end Filter

/-- The tag of a parameter that the guard adds. -/
def SafetySetting.tag (s : SafetySetting) (n : Networking) : WrittenTag :=
  ⟨"param", (s.param n).attributes.toList⟩

namespace Filter

variable {f : Filter}

/-- A parameter that the guard adds is safe. -/
theorem safeParam_tag (s : SafetySetting) (n : Networking) :
    SafeParam SafetySetting.ofName? (s.tag n) := by
  have hnames : ¬ AsciiCase.same "name" "value" = true ∧ ¬ AsciiCase.same "value" "name" = true ∧
      AsciiCase.same "value" "value" = true := by decide
  have hself : SafetySetting.ofName? s.name = some s := by
    cases s <;> decide
  intro _ a ha hname s' hs'
  rcases List.mem_cons.1 ha with rfl | ha
  · obtain rfl : s = s' := Option.some.inj (hself.symm.trans hs')
    refine ⟨⟨_, List.mem_cons_of_mem _ (List.mem_cons_self ..), hnames.2.2⟩, fun b hb hvalue => ?_⟩
    rcases List.mem_cons.1 hb with rfl | hb
    · exact absurd hvalue hnames.1
    · exact ⟨n, by rw [List.mem_singleton.1 hb]; rfl⟩
  · rw [List.mem_singleton.1 ha] at hname
    exact absurd hname hnames.2.1

/-- The tags of an end tag: those of the parameters before it, and its own if it is allowed. -/
theorem exists_spells_renderEndTag (hblocking : f.settings.blockingPrefix = none) {name : String}
    (hname : IsTagName name.toList) (d : Decision) (settings : List (SafetySetting × Networking)) :
    ∃ ps, Spells ps (f.renderEndTag name d (settings.map fun p => (p.1.name, p.1.value p.2))) ∧
      ps.filterMap Piece.tag? = settings.map (fun p => .opening (p.1.tag p.2)) ++
        if d = .allowed then [.closing name] else [] := by
  have hparams : (settings.map fun p => Piece.startTag (p.1.param p.2)).filterMap Piece.tag? =
      settings.map (fun p => .opening (p.1.tag p.2)) := by
    rw [List.filterMap_map]
    exact List.filterMap_eq_map_iff_forall_eq_some.2 fun p _ => rfl
  obtain ⟨ps, hspells, htags⟩ : ∃ ps, Spells ps (f.renderEndTag name d []) ∧
      ps.filterMap Piece.tag? = if d = .allowed then [.closing name] else [] := by
    by_cases hd : d = .allowed
    · subst hd
      have htext : f.renderEndTag name .allowed [] = "</" ++ name ++ ">" := by
        rw [renderEndTag, List.map_nil, String.join_nil, String.empty_append]
      rw [htext]
      exact ⟨_, spells_endTag hname, rfl⟩
    · rw [if_neg hd]
      exact inert_renderEndTag hblocking hname hd
  have hsplit : f.renderEndTag name d (settings.map fun p => (p.1.name, p.1.value p.2)) =
      String.join ((settings.map fun p => (p.1.name, p.1.value p.2)).map
        fun v => renderParam v.1 v.2) ++ f.renderEndTag name d [] := by
    simp only [renderEndTag, List.map_nil, String.join_nil, String.empty_append]
  rw [hsplit]
  exact ⟨_, (spells_renderParams settings).append hspells,
    by rw [List.filterMap_append, hparams, htags]⟩

theorem safe_renderEndTag (hblocking : f.settings.blockingPrefix = none) {name : String}
    (hname : IsTagName name.toList) (d : Decision) (settings : List (SafetySetting × Networking)) :
    Safe (f.renderEndTag name d (settings.map fun p => (p.1.name, p.1.value p.2))) := by
  obtain ⟨ps, hspells, htags⟩ := exists_spells_renderEndTag hblocking hname d settings
  refine ⟨ps, hspells, fun tag htag => ?_⟩
  rw [htags, List.mem_append] at htag
  rcases htag with hmem | hmem
  · obtain ⟨p, -, hp⟩ := List.mem_map.1 hmem
    rw [← ReadTag.opening.inj hp]
    exact safeParam_tag p.1 p.2
  · split at hmem
    · cases List.mem_singleton.1 hmem
    · exact absurd hmem List.not_mem_nil

/-- The start tag of an element that was judged is safe. -/
theorem safe_renderStartTag (hf : f.policy.ProtectsLinksOnly)
    (hprotect : f.settings.protectObjects = true) (hblocking : f.settings.blockingPrefix = none)
    (g : ObjectGuard) {e : Element} (hc : e.condition = none) (he : e.Shaped)
    (parent? : Option String) (neverClosed : Bool) :
    Safe (f.renderStartTag (f.judge g e parent? neverClosed).element
      (f.judge g e parent? neverClosed).decision) := by
  have hshaped := shaped_judge hf g he parent? neverClosed
  have hcondition : (f.judge g e parent? neverClosed).element.condition = none :=
    (sameTag_judge hf.hasLocalListeners g e parent? neverClosed).condition.trans hc
  by_cases hd : (f.judge g e parent? neverClosed).decision = .allowed
  · have hprotected : (f.protect g (f.decide e parent? neverClosed).2 .allowed).2.2 =
        (f.judge g e parent? neverClosed).element := by
      rw [← hd]
      rfl
    obtain ⟨x, hspells, hname, hread, -⟩ := exists_spells_renderLiveStartTag hshaped
    have hlive : Safe (renderLiveStartTag (f.judge g e parent? neverClosed).element) := by
      refine ⟨_, hspells, fun tag htag => ?_⟩
      obtain rfl := ReadTag.opening.inj (List.mem_singleton.1 htag)
      rw [hname]
      exact safeParam_protect hprotect g hprotected hshaped hread
    unfold renderStartTag
    rw [hcondition, hd]
    exact (Safe.of_inert (inert_attributeMarker hshaped)).append hlive
  · exact .of_inert (inert_renderStartTag hblocking hcondition hshaped hd)

/-- **What a filter writes is safe**, since each of its parts is. -/
theorem Writes.safe (hf : f.policy.ProtectsLinksOnly)
    (hprotect : f.settings.protectObjects = true) (hblocking : f.settings.blockingPrefix = none)
    (hescape : f.settings.escapeCommentMarkup = true) {text : String} (h : f.Writes text) :
    Safe text := by
  induction h with
  | nothing => exact .of_inert .empty
  | append _ _ hs ht => exact hs.append ht
  | text raw => exact .of_inert (inert_renderText raw)
  | comment body => exact .of_inert (inert_renderComment hescape body)
  | conditionalStart hc hcondition d =>
    exact .of_inert (inert_renderConditionalStart hc hcondition d)
  | conditionalEnd => exact .of_inert inert_renderConditionalEnd
  | startTag hc he g parent? neverClosed =>
    exact safe_renderStartTag hf hprotect hblocking g hc he parent? neverClosed
  | endTag hx g inPlace =>
    obtain ⟨e, g', parent?, neverClosed, hc, he, rfl⟩ := hx
    obtain ⟨settings, heq, -⟩ := exists_endObject g
      (f.judge g' e parent? neverClosed).opened.objectKey? inPlace
    rw [heq]
    exact safe_renderEndTag hblocking (shaped_judge hf g' he parent? neverClosed).name _ settings
  | strayEndTag hname => exact safe_renderEndTag hblocking hname _ []

/-! ## What is read in a filtered text -/

/-- **All parameters in a filtered text are safe.** As long as the filter protects objects, writes
disabled tags without a prefix and escapes markup in comments, every parameter that is read in a
filtered text and is named as a safety setting, in small or capital letters, has a safe value and no
other, whatever addresses are allowed.

*Proof sketch.* A filtered text is written in parts, of which only start tags of judged elements and
end tags of objects have parameters (`Writes.safe`). The guard forces a safe value on the first
(`forced_protect`), and they name the same setting when they are read again; those before end tags
are written with a safe value. -/
theorem safeParam_filtered (hf : f.policy.ProtectsLinksOnly)
    (hprotect : f.settings.protectObjects = true) (hblocking : f.settings.blockingPrefix = none)
    (hescape : f.settings.escapeCommentMarkup = true) (input : String) (tag : WrittenTag)
    (htag : .opening tag ∈ Markup.tags (f.byTree input) ∨
      .opening tag ∈ Markup.tags (f.byPiece input)) : SafeParam SafetySetting.ofName? tag := by
  have htree := (writes_byTree hf.hasLocalListeners input).safe hf hprotect hblocking hescape
  have hpiece := (writes_byPiece hf.hasLocalListeners input).safe hf hprotect hblocking hescape
  exact htag.elim htree.safeParam hpiece.safeParam

/-- The baseline filter where content from one address may use the network freely. -/
def trusting : Filter where
  policy := .baseline
  settings := { urlAllowList := .startingWith ["http://a/"] }

/-- The value of a parameter is forced, and content from the allowed address may use the network. -/
theorem trusting_safeParam :
    trusting.policy.ProtectsLinksOnly ∧ trusting.settings.protectObjects = true ∧
      trusting.settings.blockingPrefix = none ∧ trusting.settings.escapeCommentMarkup = true ∧
      trusting.byPiece "<object><param name=src value=http://a/b><param name=ALLOWnetworking>" =
        "<object><param name=src value=http://a/b><param name=ALLOWnetworking value=\"all\">" ∧
      ∀ tag, .opening tag ∈ Markup.tags (trusting.byPiece
        "<object><param name=src value=http://a/b><param name=ALLOWnetworking>") →
          SafeParam SafetySetting.ofName? tag := by
  have hpolicy : trusting.policy = .baseline := by
    rw [trusting]
  have hf : trusting.policy.ProtectsLinksOnly := by
    rw [hpolicy]
    exact Policy.baseline_protectsLinksOnly
  exact ⟨hf, rfl, rfl, rfl, by decide +kernel, fun tag htag =>
    safeParam_filtered hf rfl rfl rfl _ tag (.inr htag)⟩

/-- The parameter `nojava` with a value that is not safe, where a character of its name is written as
a reference. -/
def disguised : WrittenTag :=
  ⟨"param", [.ofValue "name" "nojav&#97;", .ofValue "value" "0"]⟩

/-- The guard reads names as they are written, so the value of a parameter stays if its name is
written with a reference. -/
theorem baseline_not_safeParam_unescape :
    Filter.baseline.byTree "<param name=\"nojav&#97;\" value=\"0\">" =
        "<param name=\"nojav&#97;\" value=\"0\">" ∧
      Filter.baseline.byPiece "<param name=\"nojav&#97;\" value=\"0\">" =
        "<param name=\"nojav&#97;\" value=\"0\">" ∧
      Markup.tags "<param name=\"nojav&#97;\" value=\"0\">" = [.opening disguised] ∧
      ¬ SafeParam (fun name => SafetySetting.ofName? (CharacterReference.unescape name))
        disguised := by
  have hfiltered : Filter.baseline.byTree "<param name=\"nojav&#97;\" value=\"0\">" =
        "<param name=\"nojav&#97;\" value=\"0\">" ∧
      Filter.baseline.byPiece "<param name=\"nojav&#97;\" value=\"0\">" =
        "<param name=\"nojav&#97;\" value=\"0\">" := by
    decide +kernel
  refine ⟨hfiltered.1, hfiltered.2, by decide +kernel, fun hsafe => ?_⟩
  have hgiven : SafetySetting.nojava.GivenSafely disguised.attributes :=
    hsafe (by decide) (.ofValue "name" "nojav&#97;") (List.mem_cons_self ..) (by decide) .nojava
      (by decide +kernel)
  obtain ⟨n, hn⟩ := hgiven.2 (.ofValue "value" "0") (by simp [disguised]) (by decide)
  cases n <;> exact absurd hn (by decide)

end Filter

end MarkupFilter
