import MarkupFilter.Proofs.Markup.AttributeHistories
import MarkupFilter.Proofs.Plugin.Histories

/-!
# Protected embedded elements

An embedded element has no parameters, so all safety settings are forced on its own attributes, one
after the other. Their names are different, up to letter case, and none of them is the name of the
address. So each of them is forced as if it were the only one, all of them depend on the same
address, and nothing is left to be done a second time.

## Main definitions

* `ObjectGuard.embedValues` — the settings of an embedded element, with their values.

## Main results

* `ObjectGuard.embed_eq` — an embedded element has these values forced on its attributes.
* `ObjectGuard.embed_settings` — the settings of a protected element, and all that it keeps.
-/

set_option autoImplicit false

namespace MarkupFilter

namespace ObjectGuard

/-! ## The values of the settings -/

/-- The settings of an embedded element by name, with the values that are safe if content may use
the network as far as `networking` says. -/
def embedValues (networking : Networking) : List (String × String) :=
  SafetySetting.all.map fun s => (s.name, s.value networking)

variable {urls : UrlAllowList} {e : Element} {networking : Networking}

theorem mem_embedValues (s : SafetySetting) :
    (s.name, s.value networking) ∈ embedValues networking :=
  List.mem_map_of_mem s.mem_all

theorem nodup_embedValues (networking : Networking) :
    ((embedValues networking).map fun v => AsciiCase.lower v.1).Nodup := by
  have hnames : (SafetySetting.all.map fun s => AsciiCase.lower s.name).Nodup := by decide
  rw [embedValues, List.map_map]
  exact hnames

/-- An embedded element has all settings forced on its attributes. -/
theorem embed_eq (urls : UrlAllowList) (e : Element) :
    embed urls e = e.mapAttributes
      (Attributes.forceAll (embedValues (Filter.embeddedNetworking urls e.attributes))) :=
  rfl

theorem embeddedNetworking_eq_all_iff {as : Attributes} :
    Filter.embeddedNetworking urls as = .all ↔
      ∃ src, as.value? "src" = some src ∧ urls.allows src = true := by
  unfold Filter.embeddedNetworking
  cases as.value? "src" with
  | none => simp
  | some src => simp [networkingOf]

/-- No setting is an address. -/
theorem embeddedNetworking_forceAll (as : Attributes) :
    Filter.embeddedNetworking urls (Attributes.forceAll (embedValues networking) as) =
      Filter.embeddedNetworking urls as := by
  have hsrc : ∀ s : SafetySetting, AsciiCase.lower "src" ≠ AsciiCase.lower s.name := fun s => by
    cases s <;> decide
  have hvalue : (Attributes.forceAll (embedValues networking) as).value? "src" =
      as.value? "src" := by
    refine Attributes.value?_forceAll (fun v hv => ?_) as
    obtain ⟨s, -, rfl⟩ := List.mem_map.1 hv
    exact hsrc s
  unfold Filter.embeddedNetworking
  rw [hvalue]

/-! ## What is forced, and what is not -/

/-- An attribute whose name is that of no setting is left alone. -/
theorem forced_of_other {a : Attribute} (h : SafetySetting.ofName? a.name = none) :
    Attributes.forced (embedValues networking) a = a := by
  refine Attributes.forced_of_ne fun v hv heq => ?_
  obtain ⟨s, -, rfl⟩ := List.mem_map.1 hv
  have hsame : AsciiCase.same s.name a.name = true :=
    (AsciiCase.same_iff ..).2 (heq.trans a.key_eq)
  rw [SafetySetting.ofName?_eq_some_iff.2 hsame] at h
  cases h

/-- The other attributes are the same, in the same order. -/
theorem filter_forceAll (as : Attributes) :
    (Attributes.forceAll (embedValues networking) as).toList.filter
        (fun a => (SafetySetting.ofName? a.name).isNone) =
      as.toList.filter fun a => (SafetySetting.ofName? a.name).isNone := by
  rw [Attributes.toList_forceAll (nodup_embedValues networking), List.filter_append,
    List.filter_map]
  have hnew : (((embedValues networking).filter fun v => !as.contains v.1).map
      fun v => Attribute.ofValue v.1 v.2).filter
        (fun a => (SafetySetting.ofName? a.name).isNone) = [] := by
    refine List.filter_eq_nil_iff.2 fun a ha => ?_
    obtain ⟨v, hv, rfl⟩ := List.mem_map.1 ha
    obtain ⟨s, -, rfl⟩ := List.mem_map.1 (List.mem_filter.1 hv).1
    have hs : SafetySetting.ofName? s.name = some s :=
      SafetySetting.ofName?_eq_some_iff.2 ((AsciiCase.same_iff ..).2 rfl)
    simp [Attribute.ofValue, hs]
  have hkept : ∀ a : Attribute, ((fun a : Attribute => (SafetySetting.ofName? a.name).isNone) ∘
      Attributes.forced (embedValues networking)) a = (SafetySetting.ofName? a.name).isNone :=
    fun a => by simp
  rw [hnew, List.append_nil, List.filter_congr fun a _ => hkept a]
  refine (List.map_congr_left fun a ha => forced_of_other ?_).trans (List.map_id' _)
  simpa using (List.mem_filter.1 ha).2

/-- The names are those that were there, and then the settings that were missing. -/
theorem map_name_forceAll (as : Attributes) :
    (Attributes.forceAll (embedValues networking) as).toList.map Attribute.name =
      as.toList.map Attribute.name ++
        (SafetySetting.all.filter fun s => !as.contains s.name).map SafetySetting.name := by
  rw [Attributes.toList_forceAll (nodup_embedValues networking), embedValues, List.filter_map]
  simp only [List.map_append, List.map_map]
  congr 1
  exact List.map_congr_left fun a _ => Attributes.name_forced _ a

/-- Each setting is there once, enabled and with its value. -/
theorem setting_forceAll {as : Attributes} (has : as.keys.Nodup) (s : SafetySetting) :
    ∃ a, (Attributes.forceAll (embedValues networking) as).toList.filter
        (fun b => AsciiCase.same b.name s.name) = [a] ∧
      a.enabled = true ∧ a.value = some (s.value networking) := by
  have hnodup := Attributes.nodup_forceAll (embedValues networking) has
  have hcontains := (Attributes.contains_forceAll (embedValues networking) as).1 _
    (mem_embedValues s)
  obtain ⟨a, ha, hsame⟩ := Attributes.contains_iff_exists.1 hcontains
  obtain ⟨⟨hvalue, -⟩, henabled⟩ := Attributes.holds_forceAll (nodup_embedValues networking) ha
    (mem_embedValues s) (Attributes.key_eq_iff.2 hsame)
  exact ⟨a, Attributes.filter_same_eq_singleton hnodup ha hsame, henabled, hvalue⟩

/-! ## Protected elements -/

/-- **The settings of a protected element.** No two attributes of the element have the same name, as
is the case for all attributes that were added one by one. Then each setting is there exactly once,
enabled and with its safe value, where networking is free exactly if the element has an address that
is allowed. All other attributes are as they were, in the same order; and what is not an attribute is
kept as well. A setting that was there stands where it stood, spelled as it was, and those that were
missing follow at the end, in the order in which settings are written. To protect the element again
changes nothing. -/
theorem embed_settings (urls : UrlAllowList) {e : Element} (he : e.attributes.keys.Nodup) :
    let x := embed urls e
    (∃ networking : Networking,
      (networking = .all ↔
        ∃ src, e.attributes.value? "src" = some src ∧ urls.allows src = true) ∧
      ∀ s : SafetySetting, ∃ a,
        x.attributes.toList.filter (fun b => AsciiCase.same b.name s.name) = [a] ∧
          a.enabled = true ∧ a.value = some (s.value networking)) ∧
      x.attributes.toList.filter (fun a => (SafetySetting.ofName? a.name).isNone) =
        e.attributes.toList.filter (fun a => (SafetySetting.ofName? a.name).isNone) ∧
      x = { e with attributes := x.attributes } ∧
      x.attributes.toList.map Attribute.name = e.attributes.toList.map Attribute.name ++
        (SafetySetting.all.filter fun s => !e.attributes.contains s.name).map
          SafetySetting.name ∧
      embed urls x = x := by
  intro x
  have hx : x = e.mapAttributes
      (Attributes.forceAll (embedValues (Filter.embeddedNetworking urls e.attributes))) :=
    embed_eq urls e
  clear_value x
  have hattributes : x.attributes =
      Attributes.forceAll (embedValues (Filter.embeddedNetworking urls e.attributes))
        e.attributes := by
    rw [hx, Element.mapAttributes]
  refine ⟨⟨Filter.embeddedNetworking urls e.attributes, embeddedNetworking_eq_all_iff,
    fun s => ?_⟩, ?_, ?_, ?_, ?_⟩
  · rw [hattributes]
    exact setting_forceAll he s
  · rw [hattributes]
    exact filter_forceAll e.attributes
  · rw [hx, Element.mapAttributes]
  · rw [hattributes]
    exact map_name_forceAll e.attributes
  · have hnetworking : Filter.embeddedNetworking urls x.attributes =
        Filter.embeddedNetworking urls e.attributes := by
      rw [hattributes]
      exact embeddedNetworking_forceAll e.attributes
    have hagain : Attributes.forceAll (embedValues (Filter.embeddedNetworking urls e.attributes))
        x.attributes = x.attributes := by
      rw [hattributes]
      exact Attributes.forceAll_forceAll (nodup_embedValues _) e.attributes
    rw [embed_eq, hnetworking, Element.mapAttributes, hagain]

/-- An element with an allowed address and two of the settings, one of them disabled and the other
with a value in other quotes. -/
theorem embed_settings_player :
    let urls := UrlAllowList.startingWith ["http://ok/"]
    let e : Element := { name := "embed", attributes := ⟨[{ name := "AutoPlay", enabled := false },
      { name := "src", value := some "http://ok/a" },
      { name := "allowNETWORKING", value := some "none", quote := some '\'' },
      { name := "class", value := some "c", enabled := false }]⟩ }
    e.attributes.keys.Nodup ∧
      (∃ a, (embed urls e).attributes.toList.filter
          (fun b => AsciiCase.same b.name "allowNetworking") = [a] ∧
        a.enabled = true ∧ a.value = some "all") ∧
      (embed urls e).attributes.toList.map Attribute.name =
        ["AutoPlay", "src", "allowNETWORKING", "class", "invokeURLs", "autostart",
          "allowScriptAccess", "enablehref", "enablejavascript", "nojava", "AllowHtmlPopupwindow",
          "enableHtmlAccess"] ∧
      embed urls (embed urls e) = embed urls e := by
  intro urls e
  have hkeys : e.attributes.keys.Nodup := by decide +kernel
  have hallowed : urls.allows "http://ok/a" = true := by decide +kernel
  obtain ⟨⟨networking, hall, hsettings⟩, -, -, hnames, hagain⟩ := embed_settings urls hkeys
  have hfree : networking = .all := hall.2 ⟨"http://ok/a", by decide +kernel, hallowed⟩
  have hnetworking := hsettings .allowNetworking
  rw [hfree] at hnetworking
  exact ⟨hkeys, hnetworking, hnames.trans (by decide +kernel), hagain⟩

end ObjectGuard

end MarkupFilter
