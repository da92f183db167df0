import Mathlib.Data.List.Basic
import Mathlib.Data.List.Induction
import MarkupFilter.Proofs.Filter.Forcing

/-!
# Attributes and their history

Attributes are changed one call at a time. What is there after any calls can be told from the calls
alone: an attribute is the one that was added first since its name was last removed, it stands where
it was added, and its value and its mark are those that it was given since. No call looks at more
than the name, up to letter case.

All five kinds of calls do the same three things to the row of attributes: some are taken out, those
that stay are changed where they are, and a new one may be put at the end. The proofs go by this one
description.

## Main definitions

* `AttributesCall` — the calls that change attributes.
* `Attributes.call`, `Attributes.after` — the attributes after calls.
* `Attributes.AddedBy` — which call has added the attribute of a name.
* `Attributes.IsOrderedMap` — what the operations do to a row of different names.

## Main results

* `Attributes.toList_call` — what a call does.
* `Attributes.isOrderedMap_of_nodup` — lookups and changes where names are different.
* `Attributes.told_by_calls` — the attributes after any calls.
-/

set_option autoImplicit false

namespace MarkupFilter

/-! ## Calls -/

/-- The calls that change attributes. -/
inductive AttributesCall where
  | push (a : Attribute)
  | set (name value : String)
  | remove (name : String)
  /-- The attribute of a name gets another value, if it is there. -/
  | setValue (name value : String)
  /-- The attribute of a name is enabled or disabled, if it is there. -/
  | setEnabled (name : String) (enabled : Bool)

namespace AttributesCall

/-- The attribute that a call adds if none of its name is there. -/
def added? : AttributesCall → Option Attribute
  | .push a => some a
  | .set name value => some (.ofValue name value)
  | .remove _ | .setValue .. | .setEnabled .. => none

/-- The call adds an attribute of a name, given in small letters, if none is there. -/
def adds (key : String) (c : AttributesCall) : Bool :=
  c.added?.any fun a => a.key == key

/-- The call takes away the attribute of a name, given in small letters. -/
def removes (key : String) : AttributesCall → Bool
  | .remove name => AsciiCase.lower name == key
  | _ => false

/-- What a call makes of an attribute that is there and stays. -/
def revise (a : Attribute) : AttributesCall → Attribute
  | .set name value | .setValue name value =>
    if a.key = AsciiCase.lower name then a.setValue value else a
  | .setEnabled name enabled =>
    if a.key = AsciiCase.lower name then a.setEnabled enabled else a
  | .push _ | .remove _ => a

/-- No call renames an attribute. -/
@[simp] theorem key_revise (a : Attribute) (c : AttributesCall) : (c.revise a).key = a.key := by
  cases c with
  | push b => rfl
  | remove name => rfl
  | set name value => rw [revise]; split <;> rfl
  | setValue name value => rw [revise]; split <;> rfl
  | setEnabled name enabled => rw [revise]; split <;> rfl

/-- A call that removes adds nothing. -/
theorem adds_eq_false_of_removes {key : String} {c : AttributesCall} (h : c.removes key = true) :
    c.adds key = false := by
  cases c with
  | remove name => rfl
  | _ => cases h

end AttributesCall

namespace Attributes

/-- The attributes after a call. -/
def call (as : Attributes) : AttributesCall → Attributes
  | .push a => as.push a
  | .set name value => as.set name value
  | .remove name => as.remove name
  | .setValue name value => as.update name (·.setValue value)
  | .setEnabled name enabled => as.update name (·.setEnabled enabled)

/-- The attributes after calls, if there were none before. -/
def after (calls : List AttributesCall) : Attributes :=
  calls.foldl call {}

@[simp] theorem after_nil : after [] = {} := rfl

@[simp] theorem after_concat (calls : List AttributesCall) (c : AttributesCall) :
    after (calls ++ [c]) = (after calls).call c := by
  simp [after]

/-! ## One call -/

variable {as : Attributes} {name : String}

/-- **What a call does** to the row of attributes: it takes some out, changes those that stay where
they are, and puts a new one at the end. -/
theorem toList_call (as : Attributes) (c : AttributesCall) :
    (as.call c).toList = (as.toList.filter fun a => !c.removes a.key).map c.revise ++
      c.added?.toList.filter fun a => !as.contains a.name := by
  have hstay : as.toList.filter (fun _ => true) = as.toList := List.filter_eq_self.2 (by simp)
  cases c with
  | push a =>
    have hsame : as.toList.map (AttributesCall.push a).revise = as.toList := List.map_id _
    cases h : as.contains a.name with
    | true => simp [call, AttributesCall.removes, AttributesCall.added?, hstay, hsame, h,
        push_of_contains h]
    | false => simp [call, AttributesCall.removes, AttributesCall.added?, hstay, hsame, h,
        toList_push_of_not_contains h]
  | set name value =>
    have hname : (Attribute.ofValue name value).name = name := rfl
    have hset : as.toList.map (AttributesCall.set name value).revise =
        (as.update name (·.setValue value)).toList := rfl
    cases h : as.contains name with
    | true => simp [call, AttributesCall.removes, AttributesCall.added?, hstay, hset, hname, h,
        set_of_contains h]
    | false => simp [call, AttributesCall.removes, AttributesCall.added?, hstay, hset, hname, h,
        update_of_not_contains h, toList_set_of_not_contains h]
  | remove name =>
    have hother : as.toList.filter (fun a => a.key != AsciiCase.lower name) =
        as.toList.filter fun a => !(AttributesCall.remove name).removes a.key :=
      List.filter_congr fun a _ => by rw [AttributesCall.removes, Bool.beq_comm, bne]
    have hsame : ∀ kept : List Attribute, kept.map (AttributesCall.remove name).revise = kept :=
      List.map_id
    simp only [call, remove, AttributesCall.added?, hother, hsame, Option.toList_none,
      List.filter_nil, List.append_nil]
  | setValue name value =>
    have hset : as.toList.map (AttributesCall.setValue name value).revise =
        (as.update name (·.setValue value)).toList := rfl
    simp [call, AttributesCall.removes, AttributesCall.added?, hstay, hset]
  | setEnabled name enabled =>
    have hset : as.toList.map (AttributesCall.setEnabled name enabled).revise =
        (as.update name (·.setEnabled enabled)).toList := rfl
    simp [call, AttributesCall.removes, AttributesCall.added?, hstay, hset]

/-- The names that are there after a call. -/
theorem mem_keys_call {c : AttributesCall} {key : String} :
    key ∈ (as.call c).keys ↔ c.removes key = false ∧ (key ∈ as.keys ∨ c.adds key = true) := by
  simp only [keys, toList_call, List.mem_map, List.mem_append, List.mem_filter, Option.mem_toList]
  constructor
  · rintro ⟨b, ⟨a, ⟨ha, hstays⟩, rfl⟩ | ⟨hadded, -⟩, rfl⟩
    · rw [AttributesCall.key_revise]
      exact ⟨by simpa using hstays, .inl ⟨a, ha, rfl⟩⟩
    · have hadds : c.adds b.key = true := by simp [AttributesCall.adds, hadded]
      refine ⟨?_, .inr hadds⟩
      by_contra hremoves
      rw [AttributesCall.adds_eq_false_of_removes (by simpa using hremoves)] at hadds
      cases hadds
  · rintro ⟨hstays, hmem⟩
    by_cases hthere : ∃ a ∈ as.toList, a.key = key
    · obtain ⟨a, ha, rfl⟩ := hthere
      exact ⟨c.revise a, .inl ⟨a, ⟨ha, by simp [hstays]⟩, rfl⟩, c.key_revise a⟩
    · obtain ⟨b, hadded, hkey⟩ :=
        (Option.any_eq_true ..).1 (hmem.resolve_left fun h => hthere h)
      have hkey : b.key = key := by simpa using hkey
      have hnew : as.contains b.name = false := contains_eq_false_iff.2 fun a ha heq =>
        hthere ⟨a, ha, heq.trans (b.key_eq.symm.trans hkey)⟩
      exact ⟨b, .inr ⟨hadded, by simp [hnew]⟩, hkey⟩

/-! ## Which call has added an attribute -/

/-- After the calls there is no attribute of the name, which is in small letters: whenever one was
added, one was removed later. -/
def Cleared (calls : List AttributesCall) (key : String) : Prop :=
  ∀ before c since, calls = before ++ c :: since → c.adds key = true →
    ∃ d ∈ since, d.removes key = true

/-- The attribute of the name, which is in small letters, was added by the call `c` between `before`
and `since`: this was the first one since an attribute of the name was last removed. -/
structure AddedBy (calls : List AttributesCall) (key : String) (before : List AttributesCall)
    (c : AttributesCall) (since : List AttributesCall) : Prop where
  calls_eq : calls = before ++ c :: since
  adds : c.adds key = true
  first : Cleared before key
  kept : ∀ d ∈ since, d.removes key = false

/-- The attribute of the first name was added before that of the second one. -/
def AddedEarlier (calls : List AttributesCall) (key key' : String) : Prop :=
  ∃ before c since before' c' since', AddedBy calls key before c since ∧
    AddedBy calls key' before' c' since' ∧ before.length < before'.length

/-- The attribute is the one that was added, with what the calls since then have made of it. -/
def Recorded (calls : List AttributesCall) (a : Attribute) : Prop :=
  ∃ before c since added, AddedBy calls a.key before c since ∧ c.added? = some added ∧
    a = since.foldl AttributesCall.revise added

variable {calls before since : List AttributesCall} {c d : AttributesCall} {key key' : String}

theorem cleared_nil (key : String) : Cleared [] key := by
  intro before c since h
  simp at h

theorem cleared_concat :
    Cleared (calls ++ [c]) key ↔
      c.removes key = true ∨ c.adds key = false ∧ Cleared calls key := by
  constructor
  · intro h
    cases hremoves : c.removes key with
    | true => exact .inl rfl
    | false =>
      refine .inr ⟨?_, fun before d since hcalls hadds => ?_⟩
      · by_contra hadds
        obtain ⟨d, hd, -⟩ := h calls c [] rfl (by simpa using hadds)
        exact absurd hd List.not_mem_nil
      · obtain ⟨r, hr, hremoved⟩ := h before d (since ++ [c]) (by simp [hcalls]) hadds
        rcases List.mem_append.1 hr with hr | hr
        · exact ⟨r, hr, hremoved⟩
        · rw [List.mem_singleton.1 hr, hremoves] at hremoved
          cases hremoved
  · intro h before d since hcalls hadds
    rcases List.eq_nil_or_concat' since with rfl | ⟨earlier, e, rfl⟩
    · obtain ⟨-, heq⟩ := List.append_inj' hcalls rfl
      cases heq
      rcases h with hremoves | ⟨hnot, -⟩
      · rw [AttributesCall.adds_eq_false_of_removes hremoves] at hadds
        cases hadds
      · rw [hnot] at hadds
        cases hadds
    · rw [← List.cons_append, ← List.append_assoc] at hcalls
      obtain ⟨hbefore, heq⟩ := List.append_inj' hcalls rfl
      cases heq
      rcases h with hremoves | ⟨-, hcleared⟩
      · exact ⟨c, by simp, hremoves⟩
      · obtain ⟨r, hr, hremoved⟩ := hcleared before d earlier hbefore hadds
        exact ⟨r, List.mem_append_left _ hr, hremoved⟩

namespace AddedBy

/-- A name that was added and not removed since is there. -/
theorem not_cleared (h : AddedBy calls key before c since) : ¬ Cleared calls key := by
  intro hcleared
  obtain ⟨d, hd, hremoves⟩ := hcleared before c since h.calls_eq h.adds
  rw [h.kept d hd] at hremoves
  cases hremoves

theorem length_lt (h : AddedBy calls key before c since) : before.length < calls.length := by
  rw [h.calls_eq]
  simp

/-- Only one call has added the attribute of a name. -/
theorem length_le {before' since' : List AttributesCall} {c' : AttributesCall}
    (h : AddedBy calls key before c since) (h' : AddedBy calls key before' c' since') :
    before'.length ≤ before.length := by
  rcases List.append_eq_append_iff.1 (h.calls_eq.symm.trans h'.calls_eq) with
    ⟨between, rfl, hbetween⟩ | ⟨between, rfl, -⟩
  · cases between with
    | nil => simp
    | cons d between =>
      -- what was added first would have been removed before the second call
      obtain ⟨rfl, rfl⟩ := List.cons_eq_cons.1 hbetween
      obtain ⟨r, hr, hremoves⟩ := h'.first before c between rfl h.adds
      rw [h.kept r (List.mem_append_left _ hr)] at hremoves
      cases hremoves
  · simp

/-- A call that does not remove the attribute leaves it added as it was. -/
theorem concat (h : AddedBy calls key before d since) (hc : c.removes key = false) :
    AddedBy (calls ++ [c]) key before d (since ++ [c]) := by
  refine ⟨by simp [h.calls_eq], h.adds, h.first, fun e he => ?_⟩
  rcases List.mem_append.1 he with he | he
  · exact h.kept e he
  · rw [List.mem_singleton.1 he, hc]

/-- A call adds the attribute of a name that is not there. -/
theorem last (hcleared : Cleared calls key) (hc : c.adds key = true) :
    AddedBy (calls ++ [c]) key calls c [] :=
  ⟨rfl, hc, hcleared, fun _ hd => absurd hd List.not_mem_nil⟩

end AddedBy

theorem AddedEarlier.concat (h : AddedEarlier calls key key') (hkey : c.removes key = false)
    (hkey' : c.removes key' = false) : AddedEarlier (calls ++ [c]) key key' := by
  obtain ⟨before, d, since, before', d', since', hd, hd', hlt⟩ := h
  exact ⟨_, _, _, _, _, _, hd.concat hkey, hd'.concat hkey', hlt⟩

theorem AddedEarlier.ne (h : AddedEarlier calls key key') : key ≠ key' := by
  rintro rfl
  obtain ⟨before, d, since, before', d', since', hd, hd', hlt⟩ := h
  exact Nat.not_lt.2 (hd.length_le hd') hlt

theorem Recorded.concat {a : Attribute} (h : Recorded calls a) (hc : c.removes a.key = false) :
    Recorded (calls ++ [c]) (c.revise a) := by
  obtain ⟨before, d, since, added, hd, hadded, ha⟩ := h
  refine ⟨before, d, since ++ [c], added, ?_, hadded, ?_⟩
  · rw [AttributesCall.key_revise]
    exact hd.concat hc
  · rw [List.foldl_append, ← ha]
    rfl

/-! ## Attributes after calls -/

/-- The attributes are those that the calls have left. -/
structure Follows (as : Attributes) (calls : List AttributesCall) : Prop where
  missing : ∀ key, key ∉ as.keys ↔ Cleared calls key
  recorded : ∀ a ∈ as.toList, Recorded calls a
  ordered : as.toList.Pairwise fun a b => AddedEarlier calls a.key b.key

namespace Follows

theorem empty : Follows {} [] :=
  ⟨fun key => iff_of_true List.not_mem_nil (cleared_nil key),
    fun _ ha => absurd ha List.not_mem_nil, .nil⟩

/-- The attribute that a call puts at the end. -/
theorem exists_of_mem_new (h : Follows as calls) {b : Attribute}
    (hb : b ∈ c.added?.toList.filter fun a => !as.contains a.name) :
    c.added? = some b ∧ AddedBy (calls ++ [c]) b.key calls c [] := by
  obtain ⟨hmem, hnew⟩ := List.mem_filter.1 hb
  have hadded : c.added? = some b := by simpa using hmem
  refine ⟨hadded, .last ((h.missing b.key).1 ?_) (by simp [AttributesCall.adds, hadded])⟩
  rw [b.key_eq, ← contains_iff]
  simpa using hnew

/-- A call removes none of the attributes that stay. -/
theorem removes_of_mem_kept {a : Attribute}
    (ha : a ∈ as.toList.filter fun a => !c.removes a.key) : c.removes a.key = false := by
  simpa using (List.mem_filter.1 ha).2

theorem recorded_call (h : Follows as calls) (c : AttributesCall) :
    ∀ a ∈ (as.call c).toList, Recorded (calls ++ [c]) a := by
  intro a ha
  rw [toList_call] at ha
  rcases List.mem_append.1 ha with ha | ha
  · obtain ⟨b, hb, rfl⟩ := List.mem_map.1 ha
    exact (h.recorded b (List.mem_filter.1 hb).1).concat (removes_of_mem_kept hb)
  · obtain ⟨hadded, hby⟩ := h.exists_of_mem_new ha
    exact ⟨calls, c, [], a, hby, hadded, rfl⟩

theorem ordered_call (h : Follows as calls) (c : AttributesCall) :
    (as.call c).toList.Pairwise fun a b => AddedEarlier (calls ++ [c]) a.key b.key := by
  rw [toList_call, List.pairwise_append, List.pairwise_map]
  refine ⟨?_, ?_, fun a ha b hb => ?_⟩
  · refine (h.ordered.filter _).imp_of_mem fun {a b} ha hb hab => ?_
    rw [AttributesCall.key_revise, AttributesCall.key_revise]
    exact hab.concat (removes_of_mem_kept ha) (removes_of_mem_kept hb)
  · -- at most one attribute is new
    refine List.Pairwise.filter _ ?_
    cases c.added? <;> simp
  · obtain ⟨x, hx, rfl⟩ := List.mem_map.1 ha
    obtain ⟨before, d, since, -, hd, -⟩ := h.recorded x (List.mem_filter.1 hx).1
    obtain ⟨-, hby⟩ := h.exists_of_mem_new hb
    rw [AttributesCall.key_revise]
    exact ⟨before, d, since ++ [c], calls, c, [], hd.concat (removes_of_mem_kept hx), hby,
      hd.length_lt⟩

theorem missing_call (h : Follows as calls) (c : AttributesCall) (key : String) :
    key ∉ (as.call c).keys ↔ Cleared (calls ++ [c]) key := by
  rw [mem_keys_call, cleared_concat, ← h.missing, not_and_or, not_or, Bool.not_eq_false,
    Bool.not_eq_true, and_comm]

/-- A call keeps the attributes with the calls. -/
theorem call (h : Follows as calls) (c : AttributesCall) : Follows (as.call c) (calls ++ [c]) :=
  ⟨h.missing_call c, h.recorded_call c, h.ordered_call c⟩

end Follows

/-- By induction on the calls, from the last one. -/
theorem follows_after (calls : List AttributesCall) : Follows (after calls) calls := by
  induction calls using List.reverseRecOn with
  | nil => exact .empty
  | append_singleton calls c ih =>
    rw [after_concat]
    exact ih.call c

/-! ## Operations on different names -/

/-- The attributes are a map from names to attributes, with an order: names are told apart up to
letter case, a name is looked up in the row of attributes, and a change leaves all the others where
they are. -/
structure IsOrderedMap (as : Attributes) : Prop where
  distinct : as.toList.Pairwise fun a b => AsciiCase.same a.name b.name = false
  get : ∀ name a, as.get? name = some a ↔ a ∈ as.toList ∧ AsciiCase.same a.name name = true
  value : ∀ name value, as.value? name = some value ↔
    ∃ a ∈ as.toList, AsciiCase.same a.name name = true ∧ a.value = some value
  contains : ∀ name, as.contains name = true ↔
    ∃ a ∈ as.toList, AsciiCase.same a.name name = true
  size : as.size = as.toList.length
  push_present : ∀ a, as.contains a.name = true → as.push a = as
  push_missing : ∀ a, as.contains a.name = false → (as.push a).toList = as.toList ++ [a]
  set_present : ∀ before a rest name value, as.toList = before ++ a :: rest →
    AsciiCase.same a.name name = true → (as.set name value).toList =
      before ++ { a with value := some value, quote := some (a.quote.getD '"') } :: rest
  set_missing : ∀ name value, as.contains name = false →
    (as.set name value).toList = as.toList ++ [.ofValue name value]
  update_present : ∀ before a rest name f, as.toList = before ++ a :: rest →
    AsciiCase.same a.name name = true → (as.update name f).toList = before ++ f a :: rest
  update_missing : ∀ name f, as.contains name = false → as.update name f = as
  remove_present : ∀ before a rest name, as.toList = before ++ a :: rest →
    AsciiCase.same a.name name = true →
      as.get? name = some a ∧ (as.remove name).toList = before ++ rest
  remove_missing : ∀ name, as.contains name = false →
    as.get? name = none ∧ as.remove name = as

theorem key_eq_iff {a : Attribute} :
    a.key = AsciiCase.lower name ↔ AsciiCase.same a.name name = true := by
  rw [AsciiCase.same_iff, a.key_eq]

theorem contains_iff_exists :
    as.contains name = true ↔ ∃ a ∈ as.toList, AsciiCase.same a.name name = true := by
  simp only [contains_iff, keys, List.mem_map, key_eq_iff]

theorem get?_eq_some_iff (has : as.keys.Nodup) {a : Attribute} :
    as.get? name = some a ↔ a ∈ as.toList ∧ AsciiCase.same a.name name = true := by
  rw [← key_eq_iff]
  constructor
  · intro h
    exact ⟨List.mem_of_find?_eq_some h, by simpa using List.find?_some h⟩
  · rintro ⟨ha, hkey⟩
    exact get?_of_mem has ha hkey

/-- The attributes around one of a name have other names. -/
theorem key_ne_of_split (has : as.keys.Nodup) {before rest : List Attribute} {a : Attribute}
    (hsplit : as.toList = before ++ a :: rest) (hkey : a.key = AsciiCase.lower name) :
    (∀ b ∈ before, b.key ≠ AsciiCase.lower name) ∧ ∀ b ∈ rest, b.key ≠ AsciiCase.lower name := by
  rw [keys, hsplit, List.map_append, List.map_cons, List.nodup_append] at has
  obtain ⟨-, hrest, hbefore⟩ := has
  constructor
  · intro b hb heq
    exact hbefore _ (List.mem_map_of_mem hb) _ (List.mem_cons_self ..) (heq.trans hkey.symm)
  · intro b hb heq
    exact (List.nodup_cons.1 hrest).1 (List.mem_map.2 ⟨b, hb, heq.trans hkey.symm⟩)

/-- The attribute of a name is the only one of the name. -/
theorem filter_same_eq_singleton (has : as.keys.Nodup) {a : Attribute} (ha : a ∈ as.toList)
    (hsame : AsciiCase.same a.name name = true) :
    as.toList.filter (fun b => AsciiCase.same b.name name) = [a] := by
  obtain ⟨before, rest, hsplit⟩ := List.append_of_mem ha
  obtain ⟨hbefore, hrest⟩ := key_ne_of_split has hsplit (key_eq_iff.2 hsame)
  have hnone : ∀ bs : List Attribute, (∀ b ∈ bs, b.key ≠ AsciiCase.lower name) →
      bs.filter (fun b => AsciiCase.same b.name name) = [] := fun bs h =>
    List.filter_eq_nil_iff.2 fun b hb hsame => h b hb (key_eq_iff.2 hsame)
  rw [hsplit, List.filter_append, hnone before hbefore, List.filter_cons_of_pos (by exact hsame),
    hnone rest hrest, List.nil_append]

/-- A change of one attribute is made where it stands. -/
theorem toList_update_of_split (has : as.keys.Nodup) {before rest : List Attribute}
    {a : Attribute} (hsplit : as.toList = before ++ a :: rest)
    (hkey : a.key = AsciiCase.lower name) (f : Attribute → Attribute) :
    (as.update name f).toList = before ++ f a :: rest := by
  obtain ⟨hbefore, hrest⟩ := key_ne_of_split has hsplit hkey
  have hsame : ∀ bs : List Attribute, (∀ b ∈ bs, b.key ≠ AsciiCase.lower name) →
      bs.map (fun b => if b.key = AsciiCase.lower name then f b else b) = bs := fun bs h =>
    (List.map_congr_left fun b hb => if_neg (h b hb)).trans (List.map_id' bs)
  simp only [update, map, hsplit, List.map_append, List.map_cons, hsame _ hbefore,
    hsame _ hrest, if_pos hkey]

/-- One attribute is taken out from between the others. -/
theorem toList_remove_of_split (has : as.keys.Nodup) {before rest : List Attribute}
    {a : Attribute} (hsplit : as.toList = before ++ a :: rest)
    (hkey : a.key = AsciiCase.lower name) : (as.remove name).toList = before ++ rest := by
  obtain ⟨hbefore, hrest⟩ := key_ne_of_split has hsplit hkey
  have hstay : ∀ bs : List Attribute, (∀ b ∈ bs, b.key ≠ AsciiCase.lower name) →
      bs.filter (fun b => b.key != AsciiCase.lower name) = bs := fun bs h =>
    List.filter_eq_self.2 fun b hb => by simpa using h b hb
  simp only [remove, hsplit, List.filter_append, hstay _ hbefore]
  rw [List.filter_cons_of_neg (by simp [hkey]), hstay _ hrest]

/-- A name that is not there cannot be removed. -/
theorem remove_of_not_contains (h : as.contains name = false) : as.remove name = as := by
  have hstay : as.toList.filter (fun a => a.key != AsciiCase.lower name) = as.toList :=
    List.filter_eq_self.2 fun a ha => by simpa using contains_eq_false_iff.1 h a ha
  rw [remove, hstay]

/-- **Attributes of different names** are an ordered map. -/
theorem isOrderedMap_of_nodup (has : as.keys.Nodup) : as.IsOrderedMap := by
  have hmissing : ∀ name, as.contains name = false → as.get? name = none := by
    intro name h
    simpa [contains] using h
  refine
    { distinct := ?_, get := fun _ _ => get?_eq_some_iff has, value := fun name value => ?_,
      contains := fun _ => contains_iff_exists, size := rfl,
      push_present := fun _ => push_of_contains,
      push_missing := fun _ => toList_push_of_not_contains,
      set_present := fun before a rest name value hsplit hsame => ?_,
      set_missing := fun _ value h => toList_set_of_not_contains h value,
      update_present := fun before a rest name f hsplit hsame =>
        toList_update_of_split has hsplit (key_eq_iff.2 hsame) f,
      update_missing := fun _ f h => update_of_not_contains h f,
      remove_present := fun before a rest name hsplit hsame =>
        ⟨(get?_eq_some_iff has).2 ⟨by simp [hsplit], hsame⟩,
          toList_remove_of_split has hsplit (key_eq_iff.2 hsame)⟩,
      remove_missing := fun name h => ⟨hmissing name h, remove_of_not_contains h⟩ }
  · refine (List.pairwise_map.1 has).imp fun {a b} hne => ?_
    rw [← Bool.not_eq_true, ← key_eq_iff, ← b.key_eq]
    exact hne
  · simp only [value?, Option.bind_eq_some_iff, get?_eq_some_iff has, and_assoc]
  · have hcontains : as.contains name = true := contains_iff_exists.2 ⟨a, by simp [hsplit], hsame⟩
    rw [set_of_contains hcontains, toList_update_of_split has hsplit (key_eq_iff.2 hsame)]
    rfl

/-! ## What the calls tell -/

theorem nodup_after (calls : List AttributesCall) : (after calls).keys.Nodup :=
  List.pairwise_map.2 ((follows_after calls).ordered.imp AddedEarlier.ne)

/-- A name is there if some call has added its attribute. -/
theorem mem_keys_after :
    key ∈ (after calls).keys ↔ ∃ before c since, AddedBy calls key before c since := by
  have hfollows := follows_after calls
  constructor
  · intro hkey
    obtain ⟨a, ha, rfl⟩ := List.mem_map.1 hkey
    obtain ⟨before, c, since, -, hadded, -⟩ := hfollows.recorded a ha
    exact ⟨before, c, since, hadded⟩
  · rintro ⟨before, c, since, hadded⟩
    by_contra hmissing
    exact hadded.not_cleared ((hfollows.missing key).1 hmissing)

/-- **The attributes after any calls**, where there were none before. No two have the same name, and
all operations, under any spelling of a name, do what they do to a row of attributes with different
names. The names are those that were added and not removed since; they stand in the order in which
they were first added since their last removal; and each attribute is the one that was added then,
with the values and the marks that the calls since then have given it.

**Proof sketch.** By induction on the calls, from the last one: a call takes out the attribute of a
name, revises those that stay where they are, and puts a new one at the end, if its name is not
there. The call that has added an attribute is the only one to have done so, so the places of these
calls put the attributes in order, and no two of them have the same name. -/
theorem told_by_calls (calls : List AttributesCall) :
    (after calls).IsOrderedMap ∧
      (∀ key, key ∈ (after calls).keys ↔ ∃ before c since, AddedBy calls key before c since) ∧
      ((after calls).toList.Pairwise fun a b => AddedEarlier calls a.key b.key) ∧
      ∀ a ∈ (after calls).toList, Recorded calls a := by
  have hfollows := follows_after calls
  exact ⟨isOrderedMap_of_nodup (nodup_after calls), fun _ => mem_keys_after, hfollows.ordered,
    hfollows.recorded⟩

/-- A title is added, repeated, removed and added again, under four spellings of its name. -/
theorem told_by_calls_title :
    let calls : List AttributesCall := [.push (.ofValue "Title" "1"), .push { name := "Hidden" },
      .push (.ofValue "TITLE" "2"), .remove "tITLE", .set "HIDDEN" "x", .set "title" "3",
      .setEnabled "TitlE" false]
    (after calls).toList = [{ name := "Hidden", value := some "x", quote := some '"' },
        { name := "title", value := some "3", quote := some '"', enabled := false }] ∧
      AddedEarlier calls "hidden" "title" ∧
      ((after calls).remove "TITLE").toList =
        [{ name := "Hidden", value := some "x", quote := some '"' }] := by
  intro calls
  have hafter : (after calls).toList = [{ name := "Hidden", value := some "x", quote := some '"' },
      { name := "title", value := some "3", quote := some '"', enabled := false }] := by
    decide +kernel
  have hlower : AsciiCase.lower "Hidden" = "hidden" ∧ AsciiCase.lower "title" = "title" := by decide
  obtain ⟨hmap, -, hordered, -⟩ := told_by_calls calls
  rw [hafter] at hordered
  refine ⟨hafter, ?_, (hmap.remove_present [_] _ [] "TITLE" hafter rfl).2⟩
  simpa [hlower] using hordered

end Attributes

end MarkupFilter
