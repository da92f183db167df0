import Mathlib.Data.List.Nodup
import MarkupFilter.Plugin.ObjectGuard

/-!
# Values that are set and forced

## Main definitions

* `Attribute.Holds` — an attribute has a value, in quotes.
* `Attributes.forceAll` — attributes with several values forced on them.
* `Attributes.forced` — one of them.

## Main results

* `Attributes.mem_set`, `Attributes.mem_force` — which attributes there are afterwards.
* `Attributes.get?_force_of_ne` — a forced value does not change what other names find.
* `Attributes.forceAll_eq_self`, `Attributes.forceAll_forceAll` — values are forced only once.
* `Attributes.toList_forceAll` — the row of attributes with forced values.
-/

set_option autoImplicit false

namespace MarkupFilter

/-! ## Names that are there, and names that are not -/

namespace Attributes

variable {as : Attributes} {name : String}

theorem contains_eq_false_iff :
    as.contains name = false ↔ ∀ a ∈ as.toList, a.key ≠ AsciiCase.lower name := by
  rw [← Bool.not_eq_true, contains_iff, keys, List.mem_map]
  simp

theorem map_eq_self {g : Attribute → Attribute} (h : ∀ a ∈ as.toList, g a = a) : as.map g = as := by
  have hmap : as.toList.map g = as.toList := (List.map_congr_left h).trans (List.map_id' _)
  rw [map, hmap]

/-- A name that is not there has nothing to be changed. -/
theorem update_of_not_contains (h : as.contains name = false) (f : Attribute → Attribute) :
    as.update name f = as :=
  map_eq_self fun a ha => if_neg (contains_eq_false_iff.1 h a ha)

theorem push_of_contains {a : Attribute} (h : as.contains a.name = true) : as.push a = as := by
  rw [push, if_pos h]

theorem toList_push_of_not_contains {a : Attribute} (h : as.contains a.name = false) :
    (as.push a).toList = as.toList ++ [a] := by
  rw [push, if_neg (by simp [h])]

/-- What `set` does to a name that is there. -/
theorem set_of_contains (h : as.contains name = true) (value : String) :
    as.set name value = as.update name (·.setValue value) := by
  rw [set, if_pos h]

/-- What `set` does to a name that is not there. -/
theorem toList_set_of_not_contains (h : as.contains name = false) (value : String) :
    (as.set name value).toList = as.toList ++ [.ofValue name value] := by
  rw [set, if_neg (by simp [h])]
  exact toList_push_of_not_contains h

end Attributes

/-! ## Which attributes there are -/

namespace Attributes

theorem mem_update {name : String} {g : Attribute → Attribute} {as : Attributes} {a : Attribute}
    (h : a ∈ (as.update name g).toList) :
    a ∈ as.toList ∧ a.key ≠ AsciiCase.lower name ∨
      ∃ b ∈ as.toList, b.key = AsciiCase.lower name ∧ a = g b := by
  obtain ⟨b, hb, rfl⟩ := List.mem_map.1 h
  by_cases hkey : b.key = AsciiCase.lower name
  · rw [if_pos hkey]
    exact .inr ⟨b, hb, hkey, rfl⟩
  · rw [if_neg hkey]
    exact .inl ⟨hb, hkey⟩

theorem mem_set {name value : String} {as : Attributes} {a : Attribute}
    (h : a ∈ (as.set name value).toList) :
    a ∈ as.toList ∨ a.key = AsciiCase.lower name ∧
      (a = .ofValue name value ∨ ∃ b ∈ as.toList, a = b.setValue value) := by
  by_cases hcontains : as.contains name = true
  · rw [set_of_contains hcontains] at h
    rcases mem_update h with ⟨hmem, -⟩ | ⟨b, hb, hkey, rfl⟩
    · exact .inl hmem
    · exact .inr ⟨hkey, .inr ⟨b, hb, rfl⟩⟩
  · rw [toList_set_of_not_contains (by simpa using hcontains)] at h
    rcases List.mem_append.1 h with hmem | hmem
    · exact .inl hmem
    · rw [List.mem_singleton.1 hmem]
      exact .inr ⟨rfl, .inl rfl⟩

/-- A forced value changes no attributes but those of its name. -/
theorem mem_force {name value : String} {as : Attributes} {a : Attribute}
    (h : a ∈ (ObjectGuard.force name value as).toList) :
    a ∈ as.toList ∨ a.key = AsciiCase.lower name ∧ ∃ b, a = b.setEnabled true ∧
      (b ∈ as.toList ∨ b = .ofValue name value ∨ ∃ c ∈ as.toList, b = c.setValue value) := by
  rcases mem_update h with ⟨hmem, hne⟩ | ⟨b, hb, hkey, rfl⟩
  · exact .inl ((mem_set hmem).resolve_right fun hset => hne hset.1)
  · refine .inr ⟨hkey, b, rfl, ?_⟩
    exact (mem_set hb).imp_right And.right

theorem keys_set (name value : String) (as : Attributes) :
    (as.set name value).keys =
      if as.contains name = true then as.keys else as.keys ++ [AsciiCase.lower name] := by
  rw [set]
  by_cases hcontains : as.contains name = true
  · rw [if_pos hcontains, if_pos hcontains, keys_update _ _ _ fun a => a.key_setValue value]
  · have hkey : (Attribute.ofValue name value).key = AsciiCase.lower name := rfl
    rw [if_neg hcontains, if_neg hcontains, keys_push, hkey,
      if_neg fun hmem => hcontains ((contains_iff as name).2 hmem)]

theorem nodup_set {name value : String} {as : Attributes} (h : as.keys.Nodup) :
    (as.set name value).keys.Nodup := by
  rw [keys_set]
  split
  · exact h
  · next hcontains =>
    refine List.nodup_append.2 ⟨h, by simp, fun k hk k' hk' heq => hcontains ?_⟩
    rw [contains_iff, ← List.mem_singleton.1 hk', ← heq]
    exact hk

theorem keys_force (name value : String) (as : Attributes) :
    (ObjectGuard.force name value as).keys = (as.set name value).keys :=
  keys_update _ _ _ fun a => a.key_setEnabled true

end Attributes

/-! ## Values that are there already -/

namespace Attribute

/-- The attribute has a value in quotes. -/
def Holds (a : Attribute) (value : String) : Prop :=
  a.value = some value ∧ a.quote ≠ none

theorem holds_setValue (a : Attribute) (value : String) : (a.setValue value).Holds value :=
  ⟨rfl, fun h => nomatch h⟩

theorem Holds.setEnabled {a : Attribute} {value : String} (h : a.Holds value) (enabled : Bool) :
    (a.setEnabled enabled).Holds value :=
  h

theorem Holds.setValue {a : Attribute} {value : String} (h : a.Holds value) :
    a.setValue value = a := by
  obtain ⟨hvalue, hquote⟩ := h
  obtain ⟨q, hq⟩ := Option.ne_none_iff_exists'.1 hquote
  unfold Attribute.setValue
  rw [hq, ← hvalue]
  cases a
  cases hq
  rfl

theorem setEnabled_self {a : Attribute} {enabled : Bool} (h : a.enabled = enabled) :
    a.setEnabled enabled = a := by
  subst h
  rfl

end Attribute

namespace Attributes

/-- After `set`, the attribute of the name holds the value. -/
theorem holds_set {name value : String} {as : Attributes} {a : Attribute}
    (ha : a ∈ (as.set name value).toList) (hkey : a.key = AsciiCase.lower name) :
    a.Holds value := by
  by_cases hcontains : as.contains name = true
  · rw [set_of_contains hcontains] at ha
    rcases mem_update ha with ⟨-, hne⟩ | ⟨b, -, -, rfl⟩
    · exact absurd hkey hne
    · exact b.holds_setValue value
  · rw [toList_set_of_not_contains (by simpa using hcontains)] at ha
    rcases List.mem_append.1 ha with hmem | hmem
    · refine absurd ((as.contains_iff name).2 ?_) hcontains
      exact List.mem_map.2 ⟨a, hmem, hkey⟩
    · rw [List.mem_singleton.1 hmem]
      exact ⟨rfl, fun h => nomatch h⟩

/-- A value that is there is not set again. -/
theorem set_eq_self {name value : String} {as : Attributes} (hcontains : as.contains name = true)
    (h : ∀ a ∈ as.toList, a.key = AsciiCase.lower name → a.Holds value) :
    as.set name value = as := by
  rw [set_of_contains hcontains, update]
  refine map_eq_self fun a ha => ?_
  split
  · next hkey => exact (h a ha hkey).setValue
  · rfl

/-! ## Forced values -/

/-- The attributes with all the given values forced on them, one after the other. -/
def forceAll (values : List (String × String)) (as : Attributes) : Attributes :=
  values.foldl (fun as v => ObjectGuard.force v.1 v.2 as) as

/-- What `force` does to a name that is there. -/
theorem force_of_contains {name : String} {as : Attributes} (h : as.contains name = true)
    (value : String) : ObjectGuard.force name value as =
      as.map fun a =>
        if a.key = AsciiCase.lower name then (a.setValue value).setEnabled true else a := by
  rw [ObjectGuard.force, set_of_contains h]
  simp only [update, map, List.map_map]
  congr 1
  refine List.map_congr_left fun a _ => ?_
  rw [Function.comp_apply]
  by_cases hkey : a.key = AsciiCase.lower name
  · rw [if_pos hkey, Attribute.key_setValue, if_pos hkey, if_pos hkey]
  · rw [if_neg hkey, if_neg hkey, if_neg hkey]

/-- After `force`, the attribute of the name holds the value and is enabled. -/
theorem holds_force {name value : String} {as : Attributes} {a : Attribute}
    (ha : a ∈ (ObjectGuard.force name value as).toList) (hkey : a.key = AsciiCase.lower name) :
    a.Holds value ∧ a.enabled = true := by
  rcases mem_update ha with ⟨-, hne⟩ | ⟨b, hb, hb', rfl⟩
  · exact absurd hkey hne
  · exact ⟨(holds_set hb hb').setEnabled true, rfl⟩

/-- An attribute of which the name is not forced was there before. -/
theorem mem_of_mem_forceAll {values : List (String × String)} {as : Attributes} {a : Attribute}
    (ha : a ∈ (forceAll values as).toList)
    (hkey : ∀ v ∈ values, a.key ≠ AsciiCase.lower v.1) : a ∈ as.toList := by
  induction values generalizing as with
  | nil => exact ha
  | cons v values ih =>
    have hmem := ih ha fun w hw => hkey w (List.mem_cons_of_mem _ hw)
    exact (mem_force hmem).resolve_right fun h => hkey v (List.mem_cons_self ..) h.1

theorem contains_force (name value : String) (as : Attributes) :
    (ObjectGuard.force name value as).contains name = true ∧
      ∀ name', as.contains name' = true → (ObjectGuard.force name value as).contains name' = true := by
  have hkeys := (keys_force name value as).trans (keys_set name value as)
  refine ⟨?_, fun name' h => ?_⟩
  · rw [contains_iff, hkeys]
    split
    · next h => exact (contains_iff ..).1 h
    · exact List.mem_append_right _ (List.mem_singleton.2 rfl)
  · rw [contains_iff] at h ⊢
    rw [hkeys]
    split
    · exact h
    · exact List.mem_append_left _ h

/-- All forced names are there afterwards. -/
theorem contains_forceAll (values : List (String × String)) (as : Attributes) :
    (∀ v ∈ values, (forceAll values as).contains v.1 = true) ∧
      ∀ name, as.contains name = true → (forceAll values as).contains name = true := by
  induction values generalizing as with
  | nil => exact ⟨fun v hv => absurd hv List.not_mem_nil, fun _ h => h⟩
  | cons v values ih =>
    obtain ⟨hforced, hkept⟩ := ih (ObjectGuard.force v.1 v.2 as)
    obtain ⟨hself, hothers⟩ := contains_force v.1 v.2 as
    refine ⟨fun w hw => ?_, fun name h => hkept name (hothers name h)⟩
    rcases List.mem_cons.1 hw with rfl | hmem
    · exact hkept _ hself
    · exact hforced w hmem

/-- Different names hold the values that are forced on them. -/
theorem holds_forceAll {values : List (String × String)}
    (hvalues : (values.map fun v => AsciiCase.lower v.1).Nodup) {as : Attributes} {a : Attribute}
    (ha : a ∈ (forceAll values as).toList) {v : String × String} (hv : v ∈ values)
    (hkey : a.key = AsciiCase.lower v.1) : a.Holds v.2 ∧ a.enabled = true := by
  induction values generalizing as with
  | nil => exact absurd hv List.not_mem_nil
  | cons w values ih =>
    obtain ⟨hnot, hnodup⟩ := List.nodup_cons.1 hvalues
    rcases List.mem_cons.1 hv with rfl | hmem
    · have hothers : ∀ w ∈ values, a.key ≠ AsciiCase.lower w.1 := by
        intro w hw heq
        exact hnot (List.mem_map.2 ⟨w, hw, heq.symm.trans hkey⟩)
      exact holds_force (mem_of_mem_forceAll ha hothers) hkey
    · exact ih hnodup ha hmem

/-- **Values are forced only once.** Attributes that hold the values already and are enabled are the
same after they are enabled or disabled and the values are forced, if the others stay as they are.
The induction is on the values. -/
theorem forceAll_eq_self {values : List (String × String)} {as : Attributes}
    (hcontains : ∀ v ∈ values, as.contains v.1 = true)
    (hholds : ∀ a ∈ as.toList, ∀ v ∈ values, a.key = AsciiCase.lower v.1 →
      a.Holds v.2 ∧ a.enabled = true) (enables : Attribute → Bool)
    (henables : ∀ a ∈ as.toList, enables a = a.enabled ∨
      ∃ v ∈ values, a.key = AsciiCase.lower v.1) :
    forceAll values (as.map fun a => a.setEnabled (enables a)) = as := by
  induction values generalizing enables with
  | nil =>
    refine map_eq_self fun a ha => Attribute.setEnabled_self ?_
    rcases henables a ha with h | ⟨v, hv, -⟩
    · exact h.symm
    · exact absurd hv List.not_mem_nil
  | cons v values ih =>
    have hkeys : (as.map fun a => a.setEnabled (enables a)).keys = as.keys := by
      simp only [keys, map, List.map_map]
      exact List.map_congr_left fun a _ => rfl
    have hfirst : (as.map fun a => a.setEnabled (enables a)).contains v.1 = true := by
      rw [contains_iff, hkeys, ← contains_iff]
      exact hcontains v (List.mem_cons_self ..)
    have hforce : ObjectGuard.force v.1 v.2 (as.map fun a => a.setEnabled (enables a)) =
        as.map fun a =>
          a.setEnabled (if a.key = AsciiCase.lower v.1 then true else enables a) := by
      rw [force_of_contains hfirst]
      simp only [map, List.map_map]
      congr 1
      refine List.map_congr_left fun a ha => ?_
      rw [Function.comp_apply, Attribute.key_setEnabled]
      by_cases hkey : a.key = AsciiCase.lower v.1
      · have hold := (hholds a ha v (List.mem_cons_self ..) hkey).1.setEnabled (enables a)
        rw [if_pos hkey, if_pos hkey, hold.setValue]
        rfl
      · rw [if_neg hkey, if_neg hkey]
    show forceAll values (ObjectGuard.force v.1 v.2 _) = as
    rw [hforce]
    refine ih (fun w hw => hcontains w (List.mem_cons_of_mem _ hw))
      (fun a ha w hw => hholds a ha w (List.mem_cons_of_mem _ hw)) _ fun a ha => ?_
    by_cases hkey : a.key = AsciiCase.lower v.1
    · exact .inl ((if_pos hkey).trans (hholds a ha v (List.mem_cons_self ..) hkey).2.symm)
    · rw [if_neg hkey]
      rcases henables a ha with henable | ⟨w, hw, heq⟩
      · exact .inl henable
      · rcases List.mem_cons.1 hw with rfl | hmem
        · exact absurd heq hkey
        · exact .inr ⟨w, hmem, heq⟩

/-! ## Lookups -/

/-- The attribute of a name is the only one of its name. -/
theorem get?_of_mem {as : Attributes} (has : as.keys.Nodup) {a : Attribute}
    (ha : a ∈ as.toList) {name : String} (hkey : a.key = AsciiCase.lower name) :
    as.get? name = some a := by
  have hcontains : as.contains name = true :=
    (contains_iff as name).2 (List.mem_map.2 ⟨a, ha, hkey⟩)
  obtain ⟨b, hb⟩ := Option.isSome_iff_exists.1 hcontains
  have hbkey : b.key = AsciiCase.lower name := by simpa using List.find?_some hb
  have hsame : b = a :=
    List.inj_on_of_nodup_map has (List.mem_of_find?_eq_some hb) ha (hbkey.trans hkey.symm)
  rw [hb, hsame]

/-- A change of all attributes that keeps their names changes what is found. -/
theorem get?_map {g : Attribute → Attribute} (hg : ∀ a, (g a).key = a.key) (as : Attributes)
    (name : String) : (as.map g).get? name = (as.get? name).map g := by
  simp only [get?, map, List.find?_map]
  congr 2
  funext a
  simp only [Function.comp_apply, hg]

theorem get?_update_of_ne {name name' : String} (h : AsciiCase.lower name' ≠ AsciiCase.lower name)
    {g : Attribute → Attribute} (hg : ∀ a, (g a).key = a.key) (as : Attributes) :
    (as.update name g).get? name' = as.get? name' := by
  have hkeep : ∀ a : Attribute, (if a.key = AsciiCase.lower name then g a else a).key = a.key := by
    intro a
    split
    · exact hg a
    · rfl
  rw [update, get?_map hkeep]
  cases hget : as.get? name' with
  | none => rfl
  | some a =>
    have hkey : a.key = AsciiCase.lower name' := by simpa using List.find?_some hget
    rw [Option.map_some, if_neg (by rw [hkey]; exact h)]

/-- A forced value does not change what is found under other names. -/
theorem get?_force_of_ne {name name' : String} (h : AsciiCase.lower name' ≠ AsciiCase.lower name)
    (value : String) (as : Attributes) :
    (ObjectGuard.force name value as).get? name' = as.get? name' := by
  rw [ObjectGuard.force, get?_update_of_ne h fun a => a.key_setEnabled true, set]
  split
  · rw [get?_update_of_ne h fun a => a.key_setValue value]
  · next hcontains =>
    have hname : (Attribute.ofValue name value).name = name := rfl
    have hkey : ((Attribute.ofValue name value).key == AsciiCase.lower name') = false :=
      beq_eq_false_iff_ne.2 (Ne.symm h)
    rw [push, hname, if_neg hcontains]
    simp only [get?, List.find?_append, List.find?_singleton, hkey]
    simp

/-- A name that nothing is forced on keeps its value. -/
theorem value?_forceAll {values : List (String × String)} {name : String}
    (h : ∀ v ∈ values, AsciiCase.lower name ≠ AsciiCase.lower v.1) (as : Attributes) :
    (forceAll values as).value? name = as.value? name := by
  induction values generalizing as with
  | nil => rfl
  | cons v values ih =>
    have hfirst := get?_force_of_ne (h v (List.mem_cons_self ..)) v.2 as
    show (forceAll values (ObjectGuard.force v.1 v.2 as)).value? name = _
    rw [ih fun w hw => h w (List.mem_cons_of_mem _ hw), value?, value?, hfirst]

/-! ## The row of attributes with forced values -/

/-- An attribute with the value that is forced on its name, if there is one. -/
def forced (values : List (String × String)) (a : Attribute) : Attribute :=
  match values.find? fun v => AsciiCase.lower v.1 == a.key with
  | some v => (a.setValue v.2).setEnabled true
  | none => a

@[simp] theorem name_forced (values : List (String × String)) (a : Attribute) :
    (forced values a).name = a.name := by
  unfold forced
  split <;> rfl

theorem forced_of_ne {values : List (String × String)} {a : Attribute}
    (h : ∀ v ∈ values, AsciiCase.lower v.1 ≠ a.key) : forced values a = a := by
  rw [forced, List.find?_eq_none.2 fun v hv => by simpa using h v hv]

/-- The first of several values is forced on its name, and the others on the other names. -/
theorem forced_cons (v : String × String) {values : List (String × String)}
    (h : ∀ w ∈ values, AsciiCase.lower w.1 ≠ AsciiCase.lower v.1) (a : Attribute) :
    forced values (if a.key = AsciiCase.lower v.1 then (a.setValue v.2).setEnabled true else a) =
      forced (v :: values) a := by
  by_cases hkey : a.key = AsciiCase.lower v.1
  · rw [if_pos hkey, forced_of_ne fun w hw => by simpa [hkey] using h w hw, forced,
      List.find?_cons_of_pos (by simp [hkey])]
  · rw [if_neg hkey, forced, forced, List.find?_cons_of_neg (by simpa using Ne.symm hkey)]

/-- A value is forced where its name stands, or at the end. -/
theorem toList_force (name value : String) (as : Attributes) :
    (ObjectGuard.force name value as).toList =
      as.toList.map (fun a =>
        if a.key = AsciiCase.lower name then (a.setValue value).setEnabled true else a) ++
      if as.contains name = true then [] else [.ofValue name value] := by
  by_cases h : as.contains name = true
  · rw [force_of_contains h, if_pos h, List.append_nil]
    rfl
  · have hmissing : as.contains name = false := Bool.eq_false_iff.2 h
    have hsame : ∀ g : Attribute → Attribute,
        as.toList.map (fun a => if a.key = AsciiCase.lower name then g a else a) = as.toList :=
      fun g => congrArg toList (update_of_not_contains hmissing g)
    have hkey : (Attribute.ofValue name value).key = AsciiCase.lower name := rfl
    simp only [ObjectGuard.force, update, map, toList_set_of_not_contains hmissing,
      List.map_append, hsame, List.map_cons, List.map_nil, if_pos hkey, if_neg h]
    rfl

/-- **The row of attributes with forced values**: a name that is there gets its value where it
stands, and the names that are not follow at the end, in the order of the values. The induction is
on the values: what the first one puts at the end is left alone by the others. -/
theorem toList_forceAll {values : List (String × String)}
    (hvalues : (values.map fun v => AsciiCase.lower v.1).Nodup) (as : Attributes) :
    (forceAll values as).toList = as.toList.map (forced values) ++
      (values.filter fun v => !as.contains v.1).map fun v => .ofValue v.1 v.2 := by
  induction values generalizing as with
  | nil =>
    have hsame : as.toList.map (forced []) = as.toList :=
      (List.map_congr_left fun a _ => forced_of_ne (by simp)).trans (List.map_id' _)
    simp [forceAll, hsame]
  | cons v values ih =>
    obtain ⟨hnot, hnodup⟩ := List.nodup_cons.1 hvalues
    have hne : ∀ w ∈ values, AsciiCase.lower w.1 ≠ AsciiCase.lower v.1 := fun w hw heq =>
      hnot (List.mem_map.2 ⟨w, hw, heq⟩)
    have hcontains : ∀ w ∈ values,
        (!(ObjectGuard.force v.1 v.2 as).contains w.1) = !as.contains w.1 := by
      intro w hw
      rw [contains, contains, get?_force_of_ne (hne w hw)]
    have hfirst : forceAll (v :: values) as =
        forceAll values (ObjectGuard.force v.1 v.2 as) := rfl
    rw [hfirst, ih hnodup, List.filter_congr hcontains, toList_force, List.map_append,
      List.map_map, List.append_assoc]
    congr 1
    · exact List.map_congr_left fun a _ => forced_cons v hne a
    · by_cases h : as.contains v.1 = true
      · rw [if_pos h, List.filter_cons_of_neg (by simp [h]), List.map_nil, List.nil_append]
      · have hnew : forced values (.ofValue v.1 v.2) = .ofValue v.1 v.2 := forced_of_ne hne
        rw [if_neg h, List.filter_cons_of_pos (by simp [h]), List.map_cons, List.map_cons, hnew]
        rfl

theorem nodup_forceAll (values : List (String × String)) {as : Attributes} (h : as.keys.Nodup) :
    (forceAll values as).keys.Nodup := by
  induction values generalizing as with
  | nil => exact h
  | cons v values ih =>
    show (forceAll values (ObjectGuard.force v.1 v.2 as)).keys.Nodup
    refine ih ?_
    rw [keys_force]
    exact nodup_set h

/-- Values that are forced again change nothing. -/
theorem forceAll_forceAll {values : List (String × String)}
    (hvalues : (values.map fun v => AsciiCase.lower v.1).Nodup) (as : Attributes) :
    forceAll values (forceAll values as) = forceAll values as := by
  have hmarks : (forceAll values as).map (fun a => a.setEnabled a.enabled) = forceAll values as :=
    map_eq_self fun a _ => Attribute.setEnabled_self rfl
  have hagain := forceAll_eq_self (contains_forceAll values as).1
    (fun a ha v hv hkey => holds_forceAll hvalues ha hv hkey) Attribute.enabled
    (fun a _ => .inl rfl)
  rwa [hmarks] at hagain

end Attributes

end MarkupFilter
