import MarkupFilter.Markup.OpenElements

/-!
# Open elements as a stack

The open elements are kept by name, and those in time in one row besides. Seen from the outside they
are one list, the innermost first, in which an end tag takes out the first element of its name and
makes the elements before it overdue.

## Main definitions

* `OpenEntry` — an open element with its name and whether it is overdue.
* `OpenElements.Represents` — the open elements are those of a list.

## Main results

* `Represents.push`, `Represents.close?_eq_none`, `Represents.close?_eq_some` — what the operations
  do to the list.
* `Represents.current?_eq`, `Represents.eq_nil_of_size` — the innermost element, and none.
-/

set_option autoImplicit false

namespace MarkupFilter

variable {α β : Type}

/-! ## Entries -/

/-- An open element: its number, its name in small letters, whether it is overdue, and what is
known about it. -/
structure OpenEntry (α : Type) where
  number : Nat
  key : String
  overdue : Bool
  item : α

namespace OpenEntry

/-- The open element of an entry. -/
def element (e : OpenEntry α) : OpenElement α :=
  ⟨e.number, e.item⟩

/-- The entry once an end tag has passed over it. -/
def delay (e : OpenEntry α) : OpenEntry α :=
  { e with overdue := true }

/-- The entry with something else known about it. -/
def map (g : α → β) (e : OpenEntry α) : OpenEntry β :=
  ⟨e.number, e.key, e.overdue, g e.item⟩

@[simp] theorem element_delay (e : OpenEntry α) : e.delay.element = e.element := rfl

@[simp] theorem key_delay (e : OpenEntry α) : e.delay.key = e.key := rfl

@[simp] theorem overdue_delay (e : OpenEntry α) : e.delay.overdue = true := rfl

@[simp] theorem number_delay (e : OpenEntry α) : e.delay.number = e.number := rfl

@[simp] theorem delay_map (g : α → β) (e : OpenEntry α) : (e.map g).delay = e.delay.map g := rfl

theorem map_map_delay (g : α → β) (es : List (OpenEntry α)) :
    (es.map delay).map (map g) = (es.map (map g)).map delay := by
  rw [List.map_map, List.map_map]
  rfl

/-- Either no entry has a name, or there is a first one. -/
theorem split_cases (es : List (OpenEntry α)) (key : String) :
    (∀ e ∈ es, e.key ≠ key) ∨ ∃ before e after, es = before ++ e :: after ∧
      (∀ x ∈ before, x.key ≠ e.key) ∧ e.key = key := by
  cases hfind : es.find? fun e => e.key == key with
  | none => exact .inl fun e he => by simpa using List.find?_eq_none.1 hfind e he
  | some e =>
    right
    obtain ⟨hkey, before, after, hsplit, hbefore⟩ := List.find?_eq_some_iff_append.1 hfind
    have hkey : e.key = key := by simpa using hkey
    exact ⟨before, e, after, hsplit, fun x hx => by simpa [hkey] using hbefore x hx, hkey⟩

end OpenEntry

namespace OpenElements

/-! ## Rows of one name -/

/-- The elements of a name, the innermost first. -/
def row (t : List (String × List (OpenElement α))) (key : String) : List (OpenElement α) :=
  (t.lookup key).getD []

@[simp] theorem row_nil (key : String) : row ([] : List (String × List (OpenElement α))) key = [] :=
  rfl

theorem row_cons (name key : String) (es : List (OpenElement α))
    (t : List (String × List (OpenElement α))) :
    row ((name, es) :: t) key = if key = name then es else row t key := by
  unfold row
  rw [List.lookup_cons]
  by_cases h : key = name
  · simp [h]
  · rw [beq_eq_false_iff_ne.2 h, if_neg h]

/-- Every name has one row, which is not empty. -/
structure Tidy (t : List (String × List (OpenElement α))) : Prop where
  nodup : (t.map Prod.fst).Nodup
  nonempty : ∀ entry ∈ t, entry.2 ≠ []

theorem Tidy.tail {entry : String × List (OpenElement α)}
    {t : List (String × List (OpenElement α))} (h : Tidy (entry :: t)) : Tidy t :=
  ⟨(List.nodup_cons.1 h.nodup).2, fun e he => h.nonempty e (List.mem_cons_of_mem _ he)⟩

theorem row_eq_nil_of_not_mem {t : List (String × List (OpenElement α))} {key : String}
    (h : key ∉ t.map Prod.fst) : row t key = [] := by
  induction t with
  | nil => rfl
  | cons entry t ih =>
    obtain ⟨name, es⟩ := entry
    rw [List.map_cons, List.mem_cons, not_or] at h
    rw [row_cons, if_neg h.1, ih h.2]

theorem row_insert (key k : String) (e : OpenElement α)
    (t : List (String × List (OpenElement α))) :
    row (insert key e t) k = if k = key then e :: row t key else row t k := by
  induction t with
  | nil => rw [insert, row_cons, row_nil, row_nil]
  | cons entry t ih =>
    obtain ⟨name, es⟩ := entry
    rw [insert]
    by_cases hname : name = key
    · subst hname
      rw [if_pos rfl, row_cons, row_cons, row_cons, if_pos rfl]
      by_cases hk : k = name
      · rw [if_pos hk, if_pos hk]
      · rw [if_neg hk, if_neg hk]
        exact (if_neg hk).symm
    · rw [if_neg hname, row_cons, ih, row_cons, row_cons, if_neg (Ne.symm hname)]
      by_cases hk : k = name
      · subst hk
        rw [if_pos rfl, if_neg hname]
        exact (if_pos rfl).symm
      · rw [if_neg hk]
        congr 1
        exact (if_neg hk).symm

theorem map_fst_insert (key : String) (e : OpenElement α)
    (t : List (String × List (OpenElement α))) :
    (insert key e t).map Prod.fst =
      if key ∈ t.map Prod.fst then t.map Prod.fst else t.map Prod.fst ++ [key] := by
  induction t with
  | nil => rfl
  | cons entry t ih =>
    obtain ⟨name, es⟩ := entry
    rw [insert]
    by_cases hname : name = key
    · simp [hname]
    · rw [if_neg hname, List.map_cons, ih]
      simp only [List.map_cons, List.mem_cons, Ne.symm hname, false_or]
      split <;> rfl

theorem Tidy.insert {t : List (String × List (OpenElement α))} (h : Tidy t) (key : String)
    (e : OpenElement α) : Tidy (insert key e t) := by
  refine ⟨?_, ?_⟩
  · rw [map_fst_insert]
    split
    · exact h.nodup
    · next hkey =>
      rw [List.nodup_append]
      refine ⟨h.nodup, by simp, fun a ha b hb => ?_⟩
      rw [List.mem_singleton] at hb
      exact fun hab => hkey (hb ▸ hab ▸ ha)
  · have hne : ∀ entry ∈ OpenElements.insert key e t, entry ∈ t ∨ entry.2 ≠ [] := by
      clear h
      induction t with
      | nil => simp [OpenElements.insert]
      | cons head t ih =>
        obtain ⟨name, es⟩ := head
        intro entry hentry
        rw [OpenElements.insert] at hentry
        split at hentry
        · rcases List.mem_cons.1 hentry with rfl | hmem
          · exact .inr (by simp)
          · exact .inl (List.mem_cons_of_mem _ hmem)
        · rcases List.mem_cons.1 hentry with rfl | hmem
          · exact .inl (List.mem_cons_self ..)
          · exact (ih entry hmem).imp_left (List.mem_cons_of_mem _)
    intro entry hentry
    rcases hne entry hentry with hmem | hne
    · exact h.nonempty entry hmem
    · exact hne

theorem take?_cons_of_ne {name key : String} (h : name ≠ key) (es : List (OpenElement α))
    (t : List (String × List (OpenElement α))) :
    take? key ((name, es) :: t) = (take? key t).map fun p => (p.1, (name, es) :: p.2) := by
  match es with
  | [] => simp [take?, h]
  | [e] => simp [take?, h]
  | e :: e' :: es => simp [take?, h]

/-- An element is taken from the head of its row, and the others stay. -/
structure Taken (t : List (String × List (OpenElement α))) (key : String)
    (es : List (OpenElement α)) (t' : List (String × List (OpenElement α))) : Prop where
  tidy : Tidy t'
  rows : ∀ k, row t' k = if k = key then es else row t k
  names : ∀ name ∈ t'.map Prod.fst, name ∈ t.map Prod.fst

/-- Another row in front stays as it is. -/
theorem Taken.cons {t t' : List (String × List (OpenElement α))} {key name : String}
    {es row' : List (OpenElement α)} (h : Taken t key es t') (hne : name ≠ key)
    (htidy : Tidy ((name, row') :: t)) : Taken ((name, row') :: t) key es ((name, row') :: t') := by
  refine ⟨⟨?_, ?_⟩, fun k => ?_, ?_⟩
  · rw [List.map_cons, List.nodup_cons]
    exact ⟨fun hmem => (List.nodup_cons.1 htidy.nodup).1 (h.names name hmem), h.tidy.nodup⟩
  · intro entry hentry
    rcases List.mem_cons.1 hentry with rfl | hmem
    · exact htidy.nonempty _ (List.mem_cons_self ..)
    · exact h.tidy.nonempty entry hmem
  · rw [row_cons, row_cons, h.rows]
    by_cases hk : k = name
    · rw [if_pos hk, if_neg (hk ▸ hne), if_pos hk]
    · rw [if_neg hk, if_neg hk]
  · intro n hn
    rcases List.mem_cons.1 hn with rfl | hmem
    · exact List.mem_cons_self ..
    · exact List.mem_cons_of_mem _ (h.names n hmem)

theorem take?_eq_none {t : List (String × List (OpenElement α))} (h : Tidy t) {key : String}
    (hrow : row t key = []) : take? key t = none := by
  induction t with
  | nil => rfl
  | cons entry t ih =>
    obtain ⟨name, es⟩ := entry
    rw [row_cons] at hrow
    by_cases hname : key = name
    · rw [if_pos hname] at hrow
      exact absurd hrow (h.nonempty _ (List.mem_cons_self ..))
    · rw [if_neg hname] at hrow
      rw [take?_cons_of_ne (Ne.symm hname), ih h.tail hrow, Option.map_none]

theorem take?_eq_some {t : List (String × List (OpenElement α))} (h : Tidy t) {key : String}
    {e : OpenElement α} {es : List (OpenElement α)} (hrow : row t key = e :: es) :
    ∃ t', take? key t = some (e, t') ∧ Taken t key es t' := by
  induction t with
  | nil => cases hrow
  | cons entry t ih =>
    obtain ⟨name, row'⟩ := entry
    have hnotmem : name ∉ t.map Prod.fst := (List.nodup_cons.1 h.nodup).1
    rw [row_cons] at hrow
    by_cases hname : key = name
    · subst hname
      rw [if_pos rfl] at hrow
      subst hrow
      cases es with
      | nil =>
        refine ⟨t, by rw [take?, if_pos rfl], h.tail, fun k => ?_, fun n hn =>
          List.mem_cons_of_mem _ hn⟩
        rw [row_cons]
        by_cases hk : k = key
        · rw [if_pos hk, hk, row_eq_nil_of_not_mem hnotmem]
        · rw [if_neg hk, if_neg hk]
      | cons e' es =>
        refine ⟨(key, e' :: es) :: t, by simp [take?], ⟨h.nodup, ?_⟩, fun k => ?_, fun n hn => hn⟩
        · intro entry hentry
          rcases List.mem_cons.1 hentry with rfl | hmem
          · simp
          · exact h.tail.nonempty entry hmem
        · rw [row_cons, row_cons]
          by_cases hk : k = key
          · rw [if_pos hk, if_pos hk]
          · rw [if_neg hk, if_neg hk, if_neg hk]
    · rw [if_neg hname] at hrow
      obtain ⟨t', htake, htaken⟩ := ih h.tail hrow
      exact ⟨(name, row') :: t', by rw [take?_cons_of_ne (Ne.symm hname), htake, Option.map_some],
        htaken.cons (Ne.symm hname) h⟩

/-! ## The list of open elements -/

/-- The open elements of `o` are those of the list, the innermost first. -/
structure Represents (o : OpenElements α) (es : List (OpenEntry α)) : Prop where
  ordered : es.Pairwise fun a b => b.number < a.number
  below : ∀ e ∈ es, e.number < o.nextNumber
  inTime : o.inTime = (es.filter fun e => !e.overdue).map OpenEntry.element
  tidy : Tidy o.byName
  rows : ∀ key, row o.byName key = (es.filter fun e => e.key == key).map OpenEntry.element

namespace Represents

variable {o : OpenElements α} {es : List (OpenEntry α)}

theorem empty : Represents ({} : OpenElements α) [] :=
  ⟨.nil, by simp, rfl, ⟨by simp, by simp⟩, fun _ => rfl⟩

theorem push (h : Represents o es) (name : String) (item : α) :
    Represents (o.push name item) (⟨o.nextNumber, AsciiCase.lower name, false, item⟩ :: es) := by
  refine ⟨?_, ?_, ?_, h.tidy.insert _ _, fun key => ?_⟩
  · exact List.pairwise_cons.2 ⟨fun e he => h.below e he, h.ordered⟩
  · intro e he
    rcases List.mem_cons.1 he with rfl | hmem
    · exact Nat.lt_succ_self _
    · exact Nat.lt_succ_of_lt (h.below e hmem)
  · rw [OpenElements.push, h.inTime]
    rfl
  · rw [OpenElements.push, row_insert, h.rows, h.rows]
    by_cases hk : key = AsciiCase.lower name
    · subst hk
      simp [OpenEntry.element]
    · rw [if_neg hk, List.filter_cons_of_neg (by simpa using Ne.symm hk)]

/-- The row of a name that no entry has. -/
theorem row_eq_nil (h : Represents o es) {key : String} (hkey : ∀ e ∈ es, e.key ≠ key) :
    row o.byName key = [] := by
  rw [h.rows, List.filter_eq_nil_iff.2 fun e he => by simpa using hkey e he]
  rfl

/-- The row of a name starts with the first entry of that name. -/
theorem row_eq_cons {before after : List (OpenEntry α)} {e : OpenEntry α}
    (h : Represents o (before ++ e :: after)) (hbefore : ∀ x ∈ before, x.key ≠ e.key) :
    row o.byName e.key =
      e.element :: (after.filter fun x => x.key == e.key).map OpenEntry.element := by
  rw [h.rows, List.filter_append,
    List.filter_eq_nil_iff.2 fun x hx => by simpa using hbefore x hx,
    List.nil_append, List.filter_cons_of_pos (by simp), List.map_cons]

/-- An end tag closes nothing if no open element has its name. -/
theorem close?_eq_none (h : Represents o es) {name : String}
    (hname : ∀ e ∈ es, e.key ≠ AsciiCase.lower name) : o.close? name = none := by
  rw [close?, take?_eq_none h.tidy (h.row_eq_nil hname), Option.map_none]

/-- What an end tag does to the list: it takes out the first entry of its name, and those before it
are overdue from then on. -/
structure Closes (o : OpenElements α) (c : Closure α) (before : List (OpenEntry α)) (e : OpenEntry α)
    (after : List (OpenEntry α)) : Prop where
  item : c.item = e.item
  overdue : c.overdue = e.overdue
  skipped : c.skipped = (before.filter fun e => !e.overdue).map OpenEntry.item
  remaining : Represents c.remaining (before.map OpenEntry.delay ++ after)
  nextNumber : c.remaining.nextNumber = o.nextNumber

theorem filter_delay (before : List (OpenEntry α)) :
    (before.map OpenEntry.delay).filter (fun e => !e.overdue) = [] := by
  rw [List.filter_eq_nil_iff]
  intro e he
  obtain ⟨e', -, rfl⟩ := List.mem_map.1 he
  simp

theorem map_element_delay (before : List (OpenEntry α)) :
    (before.map OpenEntry.delay).map OpenEntry.element = before.map OpenEntry.element := by
  rw [List.map_map]
  rfl

/-- What is left on the list once an entry is taken out. -/
theorem without {before after : List (OpenEntry α)} {e : OpenEntry α}
    (h : Represents o (before ++ e :: after)) (hbefore : ∀ x ∈ before, x.key ≠ e.key)
    {byName : List (String × List (OpenElement α))}
    (htaken : Taken o.byName e.key
      ((after.filter fun x => x.key == e.key).map OpenEntry.element) byName) :
    Represents ⟨o.nextNumber, byName, (after.filter fun e => !e.overdue).map OpenEntry.element⟩
      (before.map OpenEntry.delay ++ after) := by
  have hordered := List.pairwise_append.1 h.ordered
  refine ⟨?_, ?_, ?_, htaken.tidy, fun key => ?_⟩
  · rw [List.pairwise_append, List.pairwise_map]
    refine ⟨hordered.1, (List.pairwise_cons.1 hordered.2.1).2, fun a ha b hb => ?_⟩
    obtain ⟨a', ha', rfl⟩ := List.mem_map.1 ha
    exact hordered.2.2 a' ha' b (List.mem_cons_of_mem _ hb)
  · intro x hx
    rcases List.mem_append.1 hx with hx | hx
    · obtain ⟨x', hx', rfl⟩ := List.mem_map.1 hx
      exact h.below x' (List.mem_append_left _ hx')
    · exact h.below x (List.mem_append_right _ (List.mem_cons_of_mem _ hx))
  · rw [List.filter_append, filter_delay, List.nil_append]
  · have hkey : ((before.map OpenEntry.delay).filter fun x => x.key == key).map
        OpenEntry.element = (before.filter fun x => x.key == key).map OpenEntry.element := by
      rw [List.filter_map, map_element_delay]
      rfl
    rw [htaken.rows, h.rows, List.filter_append, List.filter_append, List.map_append,
      List.map_append, hkey]
    by_cases hk : key = e.key
    · subst hk
      have hnone : before.filter (fun x => x.key == e.key) = [] :=
        List.filter_eq_nil_iff.2 fun x hx => by simpa using hbefore x hx
      rw [if_pos rfl, hnone]
      rfl
    · rw [if_neg hk, List.filter_cons_of_neg (by simpa using Ne.symm hk)]

/-- The entries in time before an entry are those that its end tag passes over. -/
theorem skippedBy_eq {before after : List (OpenEntry α)} {e : OpenEntry α}
    (h : Represents o (before ++ e :: after)) :
    o.skippedBy e.number = (before.filter fun x => !x.overdue).map OpenEntry.element ∧
      o.inTimeAfter e.number = ((e :: after).filter fun x => !x.overdue).map
        OpenEntry.element := by
  have hordered := List.pairwise_append.1 h.ordered
  -- the entries before `e` have higher numbers than `e`, the others have not
  have hin : ∀ x ∈ (before.filter fun x => !x.overdue).map OpenEntry.element,
      decide (e.number < x.number) = true := by
    intro x hx
    obtain ⟨x', hx', rfl⟩ := List.mem_map.1 hx
    exact decide_eq_true (hordered.2.2 x' (List.mem_filter.1 hx').1 e (List.mem_cons_self ..))
  have hout : ∀ x ∈ ((e :: after).filter fun x => !x.overdue).map OpenEntry.element,
      ¬ decide (e.number < x.number) = true := by
    intro x hx
    obtain ⟨x', hx', rfl⟩ := List.mem_map.1 hx
    have hle : x'.number ≤ e.number := by
      rcases List.mem_cons.1 (List.mem_filter.1 hx').1 with rfl | hmem
      · exact Nat.le_refl _
      · exact Nat.le_of_lt ((List.pairwise_cons.1 hordered.2.1).1 x' hmem)
    rw [decide_eq_true_iff]
    exact Nat.not_lt.2 hle
  rw [skippedBy, inTimeAfter, h.inTime, List.filter_append, List.map_append,
    List.takeWhile_append_of_pos hin, List.dropWhile_append_of_pos hin]
  cases hrest : ((e :: after).filter fun x => !x.overdue).map OpenEntry.element with
  | nil => exact ⟨by rw [List.takeWhile_nil, List.append_nil], rfl⟩
  | cons x xs =>
    have hx := hout x (by rw [hrest]; exact List.mem_cons_self ..)
    rw [List.takeWhile_cons_of_neg (p := fun a : OpenElement α => decide (e.number < a.number)) hx,
      List.dropWhile_cons_of_neg (p := fun a : OpenElement α => decide (e.number < a.number)) hx,
      List.append_nil]
    exact ⟨rfl, rfl⟩

/-- An end tag closes the first entry of its name. -/
theorem close?_eq_some {before after : List (OpenEntry α)} {e : OpenEntry α}
    (h : Represents o (before ++ e :: after)) (hbefore : ∀ x ∈ before, x.key ≠ e.key)
    {name : String} (hname : e.key = AsciiCase.lower name) :
    ∃ c, o.close? name = some c ∧ Closes o c before e after := by
  obtain ⟨byName, htake, htaken⟩ := take?_eq_some h.tidy (h.row_eq_cons hbefore)
  obtain ⟨hskipped, hafter⟩ := h.skippedBy_eq
  have hwithout := h.without hbefore htaken
  have hitems : ((before.filter fun x => !x.overdue).map OpenEntry.element).map OpenElement.item =
      (before.filter fun x => !x.overdue).map OpenEntry.item := by
    rw [List.map_map]
    rfl
  rw [close?, ← hname, htake, Option.map_some]
  dsimp only [OpenEntry.element]
  cases hover : e.overdue with
  | true =>
    rw [List.filter_cons_of_neg (by simp [hover])] at hafter
    rw [hskipped, hitems, hafter]
    cases hrest : (after.filter fun x => !x.overdue).map OpenEntry.element with
    | nil =>
      rw [hrest] at hwithout
      exact ⟨_, rfl, rfl, hover.symm, rfl, hwithout, rfl⟩
    | cons f outer =>
      -- the outermost of them is not `e`, since its number is lower
      have hne : f.number ≠ e.number := by
        have hmem : f ∈ (after.filter fun x => !x.overdue).map OpenEntry.element := by
          rw [hrest]
          exact List.mem_cons_self ..
        obtain ⟨x, hx, rfl⟩ := List.mem_map.1 hmem
        exact Nat.ne_of_lt ((List.pairwise_cons.1 (List.pairwise_append.1 h.ordered).2.1).1 x
          (List.mem_filter.1 hx).1)
      rw [hrest] at hwithout
      dsimp only
      rw [if_neg hne]
      exact ⟨_, rfl, rfl, hover.symm, rfl, hwithout, rfl⟩
  | false =>
    rw [List.filter_cons_of_pos (by simp [hover]), List.map_cons] at hafter
    rw [hskipped, hitems, hafter]
    dsimp only
    rw [if_pos (show e.element.number = e.number from rfl)]
    exact ⟨_, rfl, rfl, hover.symm, rfl, hwithout, rfl⟩

/-- The end tag of the first entry closes it. -/
theorem close?_head {e : OpenEntry α} (h : Represents o (e :: es)) {name : String}
    (hname : e.key = AsciiCase.lower name) : ∃ c, o.close? name = some c ∧ Closes o c [] e es :=
  have hfirst : Represents o ([] ++ e :: es) := h
  hfirst.close?_eq_some (by simp) hname

/-- Either an end tag closes nothing, or it closes the first entry of its name. -/
theorem close?_cases (h : Represents o es) (name : String) :
    o.close? name = none ∨ ∃ before e after c, es = before ++ e :: after ∧
      (∀ x ∈ before, x.key ≠ e.key) ∧ e.key = AsciiCase.lower name ∧
        o.close? name = some c ∧ Closes o c before e after := by
  rcases OpenEntry.split_cases es (AsciiCase.lower name) with
    hnone | ⟨before, e, after, rfl, hbefore, hkey⟩
  · exact .inl (h.close?_eq_none hnone)
  · obtain ⟨c, hc, hcloses⟩ := h.close?_eq_some hbefore hkey
    exact .inr ⟨before, e, after, c, rfl, hbefore, hkey, hc, hcloses⟩

/-! ### Entries with more known about them -/

section Known

variable {γ : Type} {g : γ → α} {name : String}

theorem close?_map_eq_none {es : List (OpenEntry γ)} (h : o.Represents (es.map (OpenEntry.map g)))
    (hname : ∀ e ∈ es, e.key ≠ AsciiCase.lower name) : o.close? name = none :=
  h.close?_eq_none (List.forall_mem_map.2 hname)

theorem close?_map_eq_some {before after : List (OpenEntry γ)} {e : OpenEntry γ}
    (h : o.Represents ((before ++ e :: after).map (OpenEntry.map g)))
    (hbefore : ∀ x ∈ before, x.key ≠ e.key) (hname : e.key = AsciiCase.lower name) :
    ∃ c, o.close? name = some c ∧
      Closes o c (before.map (OpenEntry.map g)) (e.map g) (after.map (OpenEntry.map g)) := by
  rw [List.map_append, List.map_cons] at h
  exact h.close?_eq_some (List.forall_mem_map.2 hbefore) hname

/-- Two kinds of open elements of which the same is known otherwise are closed alike. -/
theorem close?_both {g' : γ → β} {o' : OpenElements β} {es : List (OpenEntry γ)}
    (h : o.Represents (es.map (OpenEntry.map g))) (h' : o'.Represents (es.map (OpenEntry.map g')))
    (name : String) :
    (o.close? name = none ∧ o'.close? name = none) ∨
      ∃ before e after c c', es = before ++ e :: after ∧ o.close? name = some c ∧
        o'.close? name = some c' ∧
        Closes o c (before.map (OpenEntry.map g)) (e.map g) (after.map (OpenEntry.map g)) ∧
        Closes o' c' (before.map (OpenEntry.map g')) (e.map g') (after.map (OpenEntry.map g')) := by
  rcases OpenEntry.split_cases es (AsciiCase.lower name) with
    hnone | ⟨before, e, after, rfl, hbefore, hkey⟩
  · exact .inl ⟨h.close?_map_eq_none hnone, h'.close?_map_eq_none hnone⟩
  · right
    obtain ⟨c, hc, hcloses⟩ := h.close?_map_eq_some hbefore hkey
    obtain ⟨c', hc', hcloses'⟩ := h'.close?_map_eq_some hbefore hkey
    exact ⟨before, e, after, c, c', rfl, hc, hc', hcloses, hcloses'⟩

end Known

/-! ### The innermost element -/

/-- The innermost of `best` and the heads of the rows: none is inner, and it is one of them. -/
theorem foldl_inner? (t : List (String × List (OpenElement α))) (best : Option (OpenElement α))
    (hnonempty : ∀ entry ∈ t, entry.2 ≠ []) (e : OpenElement α)
    (hmax : ∀ x, best = some x ∨ x ∈ t.map (fun entry => entry.2.head?.getD e) →
      x.number < e.number ∨ x = e)
    (hmem : best = some e ∨ e ∈ t.map fun entry => entry.2.head?.getD e) :
    t.foldl (fun best entry => inner? best entry.2.head?) best = some e := by
  induction t generalizing best with
  | nil =>
    rcases hmem with h | h
    · exact h
    · simp at h
  | cons entry t ih =>
    obtain ⟨name, es⟩ := entry
    obtain ⟨f, fs, rfl⟩ := List.exists_cons_of_ne_nil (hnonempty _ (List.mem_cons_self ..))
    have hf : f.number < e.number ∨ f = e := hmax f (.inr (by simp))
    rw [List.foldl_cons]
    refine ih _ (fun entry h => hnonempty entry (List.mem_cons_of_mem _ h)) ?_ ?_
    · rintro x (hx | hx)
      · cases best with
        | none =>
          obtain rfl := Option.some.inj hx
          exact hf
        | some b =>
          simp only [List.head?_cons, inner?] at hx
          split at hx
          · obtain rfl := Option.some.inj hx
            exact hf
          · exact hmax x (.inl hx)
      · exact hmax x (.inr (List.mem_cons_of_mem _ hx))
    · rcases hmem with h | h
      · left
        subst h
        rw [List.head?_cons, inner?]
        rcases hf with hlt | rfl
        · rw [if_neg (Nat.lt_asymm hlt)]
        · simp
      · rcases List.mem_cons.1 h with h | h
        · left
          obtain rfl : e = f := h
          cases best with
          | none => rfl
          | some b =>
            rw [List.head?_cons, inner?]
            rcases hmax b (.inl rfl) with hlt | rfl
            · rw [if_pos hlt]
            · simp
        · exact .inr h

theorem row_eq_of_mem {t : List (String × List (OpenElement α))} (h : Tidy t)
    {entry : String × List (OpenElement α)} (hmem : entry ∈ t) : row t entry.1 = entry.2 := by
  induction t with
  | nil => cases hmem
  | cons first t ih =>
    obtain ⟨name, es⟩ := first
    rw [row_cons]
    rcases List.mem_cons.1 hmem with rfl | hmem
    · exact if_pos rfl
    · have hne : entry.1 ≠ name := fun heq =>
        (List.nodup_cons.1 h.nodup).1 (List.mem_map.2 ⟨entry, hmem, heq⟩)
      rw [if_neg hne, ih h.tail hmem]

theorem mem_of_row {t : List (String × List (OpenElement α))} {key : String}
    {e : OpenElement α} {es : List (OpenElement α)} (h : row t key = e :: es) :
    (key, e :: es) ∈ t := by
  induction t with
  | nil => cases h
  | cons first t ih =>
    obtain ⟨name, es'⟩ := first
    rw [row_cons] at h
    by_cases hname : key = name
    · rw [if_pos hname] at h
      rw [hname, h]
      exact List.mem_cons_self ..
    · rw [if_neg hname] at h
      exact List.mem_cons_of_mem _ (ih h)

/-- The innermost open element is the first of the list. -/
theorem current?_eq (h : Represents o es) : o.current? = es.head?.map OpenEntry.item := by
  cases es with
  | nil =>
    have hnil : o.byName = [] := by
      refine List.eq_nil_iff_forall_not_mem.2 fun entry hentry => ?_
      exact h.tidy.nonempty entry hentry ((row_eq_of_mem h.tidy hentry).symm.trans (h.rows _))
    rw [current?, hnil]
    rfl
  | cons e es =>
    have hrow : row o.byName e.key =
        e.element :: (es.filter fun x => x.key == e.key).map OpenEntry.element := by
      rw [h.rows, List.filter_cons_of_pos (by simp), List.map_cons]
    have hfold := foldl_inner? o.byName none h.tidy.nonempty e.element ?_ ?_
    · rw [current?, hfold]
      rfl
    · rintro x (hx | hx)
      · cases hx
      · obtain ⟨entry, hentry, rfl⟩ := List.mem_map.1 hx
        have hall : ∀ y ∈ entry.2, y.number < e.element.number ∨ y = e.element := by
          rw [← row_eq_of_mem h.tidy hentry, h.rows]
          intro y hy
          obtain ⟨y', hy', rfl⟩ := List.mem_map.1 hy
          rcases List.mem_cons.1 (List.mem_filter.1 hy').1 with rfl | hmem
          · exact .inr rfl
          · exact .inl ((List.pairwise_cons.1 h.ordered).1 y' hmem)
        obtain ⟨y, ys, hys⟩ := List.exists_cons_of_ne_nil (h.tidy.nonempty entry hentry)
        rw [hys]
        exact hall y (by rw [hys]; exact List.mem_cons_self ..)
    · exact .inr (List.mem_map.2 ⟨_, mem_of_row hrow, rfl⟩)

theorem foldl_length (t : List (String × List (OpenElement α))) (n : Nat) :
    n ≤ t.foldl (fun n entry => n + entry.2.length) n ∧
      (t.foldl (fun n entry => n + entry.2.length) n = 0 → ∀ entry ∈ t, entry.2 = []) := by
  induction t generalizing n with
  | nil => exact ⟨Nat.le_refl _, by simp⟩
  | cons first t ih =>
    rw [List.foldl_cons]
    obtain ⟨hle, hzero⟩ := ih (n + first.2.length)
    refine ⟨by omega, fun h entry hentry => ?_⟩
    rcases List.mem_cons.1 hentry with rfl | hmem
    · exact List.length_eq_zero_iff.1 (by omega)
    · exact hzero h entry hmem

/-- If the number of open elements is zero, the list is empty. -/
theorem eq_nil_of_size (h : Represents o es) (hsize : o.size = 0) : es = [] := by
  have hnil : o.byName = [] :=
    List.eq_nil_iff_forall_not_mem.2 fun entry hentry =>
      h.tidy.nonempty entry hentry ((foldl_length o.byName 0).2 hsize entry hentry)
  cases es with
  | nil => rfl
  | cons e es =>
    have hrow := h.rows e.key
    rw [hnil, row_nil, List.filter_cons_of_pos (by simp)] at hrow
    cases hrow

/-- If the list is empty, so is every row of open elements. -/
theorem size_eq_zero (h : Represents o []) : o.size = 0 := by
  have hnil : o.byName = [] := by
    refine List.eq_nil_iff_forall_not_mem.2 fun entry hentry => h.tidy.nonempty entry hentry ?_
    rw [← row_eq_of_mem h.tidy hentry, h.rows]
    rfl
  rw [OpenElements.size, hnil, List.foldl_nil]

end Represents

end OpenElements

end MarkupFilter
