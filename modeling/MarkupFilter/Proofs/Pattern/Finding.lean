import MarkupFilter.Proofs.Pattern.Scans
import MarkupFilter.Proofs.Pattern.Tracks

/-!
# What machines find

A machine finds a span if, once it was entered in a copy at the start of the span, it has ended in
this copy at the end of it. Tracks find their words, and what the other machines find follows from
what their parts find.

## Main definitions

* `Finds` — a machine finds the spans of a relation.
* `Finds.InRow`, `Finds.Repeated` — spans that are made of others.

## Main results

* `Finds.track`, `Finds.choiceOf`, `Finds.rowOf`, `Finds.loop` — what the machines find.
-/

set_option autoImplicit false

namespace MarkupFilter.Pattern

/-- The machine finds the spans, in each of `w` copies: it can be passed over at the places of empty
spans, and it ends where the other ones do. -/
structure Finds (s : Scan) (w : Nat) (m : Machine) (spans : Nat → Nat → Prop) : Prop where
  le : ∀ i j, spans i j → i ≤ j
  rests : m.Rests
  ended_lt : ∀ before after n enter k, (m.shift before after n enter k).ended < 2 ^ w
  nullable : ∀ i, spans i i → m.nullable.contains (s.place i) = true
  ended : ∀ enter : Nat → Nat, (∀ i, enter i < 2 ^ w) → ∀ i j b, i < j → spans i j →
    (enter i).testBit b = true → (s.marks m enter j).ended.testBit b = true

namespace Finds

variable {s : Scan} {w : Nat} {m : Machine} {spans : Nat → Nat → Prop}

theorem mono (h : Finds s w m spans) {fewer : Nat → Nat → Prop}
    (hfewer : ∀ i j, fewer i j → spans i j) : Finds s w m fewer where
  le i j hspan := h.le i j (hfewer i j hspan)
  rests := h.rests
  ended_lt := h.ended_lt
  nullable i hspan := h.nullable i (hfewer i i hspan)
  ended enter henter i j b hlt hspan := h.ended enter henter i j b hlt (hfewer i j hspan)

theorem ended_marks_lt (h : Finds s w m spans) (enter : Nat → Nat) (i : Nat) :
    (s.marks m enter i).ended < 2 ^ w := by
  cases i with
  | zero => exact Nat.two_pow_pos w
  | succ i => exact h.ended_lt _ _ _ _ _

/-! ### Words -/

theorem shift_track (t : Track) (before after : Place) (n enter : Nat) (k : Marks) :
    (Machine.track t).shift before after n enter k = t.shift n enter k.onTrack := by
  cases k <;> rfl

theorem onTrack_marks_succ (t : Track) (enter : Nat → Nat) (i : Nat) :
    (s.marks (.track t) enter (i + 1)).onTrack =
      t.moved (s.code i) (enter i) (s.marks (.track t) enter i).onTrack := by
  rw [Scan.marks, shift_track, Track.onTrack_shift]

theorem ended_marks_track (t : Track) (enter : Nat → Nat) (i : Nat) :
    (s.marks (.track t) enter i).ended = t.endedCopies (s.marks (.track t) enter i).onTrack := by
  cases i with
  | zero => exact t.endedCopies_zero.symm
  | succ i => rw [Scan.marks, shift_track, Track.ended_shift]

/-- **A track finds its words.** -/
theorem track {words : List SetWord} (hwords : ∀ word ∈ words, word ≠ []) :
    Finds s w (.track (.ofWords w words)) fun i j => ∃ word ∈ words, word.Spells s.code i j where
  le i j := by
    rintro ⟨word, -, hspelled⟩
    rw [hspelled.eq_add]
    exact Nat.le_add_right ..
  rests before after n := by
    rw [shift_track, Track.shift_eq]
    simp [Marks.onTrack, Track.moved]
  ended_lt before after n enter k := by
    rw [shift_track, Track.shift_eq]
    split
    · exact Nat.two_pow_pos w
    · exact Track.endedCopies_lt _ _
  nullable i := by
    rintro ⟨word, hmem, hspelled⟩
    have hlength := hspelled.eq_add
    exact absurd (List.eq_nil_of_length_eq_zero (by omega)) (hwords word hmem)
  ended enter henter i j b hlt := by
    rintro ⟨word, hmem, hspelled⟩ hb
    let marks (i : Nat) : Nat := (s.marks (.track (.ofWords w words)) enter i).onTrack
    have hmarks : ∀ i, marks (i + 1) = (Track.ofWords w words).moved (s.code i) (enter i) (marks i) :=
      fun i => onTrack_marks_succ _ enter i
    rw [ended_marks_track]
    exact Track.testBit_endedCopies_of_spells hwords hmem marks hmarks (henter i) hb hspelled

/-! ### Parts -/

/-- What holds of machines that find something holds of all parts. -/
theorem forall_machines {P : Machine → Prop} {parts : List (Machine × (Nat → Nat → Prop))}
    (hparts : ∀ part ∈ parts, Finds s w part.1 part.2)
    (h : ∀ {m : Machine} {spans : Nat → Nat → Prop}, Finds s w m spans → P m) :
    ∀ m ∈ parts.map Prod.fst, P m := by
  intro m hm
  obtain ⟨part, hmem, rfl⟩ := List.mem_map.1 hm
  exact h (hparts part hmem)

/-! ### Alternatives -/

theorem testBit_gather_join {ms : List Machine} {ended b : Nat} {marks : Machine → Marks} :
    (Machine.gather Machine.join ended (ms.map marks) ms).testBit b = true ↔
      ended.testBit b = true ∨ ∃ m ∈ ms, (marks m).ended.testBit b = true := by
  induction ms generalizing ended with
  | nil => simp [Machine.gather]
  | cons m ms ih =>
    rw [List.map_cons, Machine.gather, List.headD_cons, List.tail_cons, ih, Machine.join,
      Nat.testBit_or, Bool.or_eq_true, or_assoc]
    simp only [List.mem_cons, exists_eq_or_imp]

theorem parts_same (enter : Nat → Nat) (ms : List Machine) (i : Nat) :
    s.parts (fun _ => Machine.same) enter ms i = ms.map fun m => s.marks m enter i := by
  induction ms with
  | nil => rfl
  | cons m ms ih =>
    rw [List.map_cons, ← ih]
    rfl

theorem contains_foldl_union (places : PlaceSet) (ms : List Machine) (p : Place) :
    (ms.foldl (fun s m => s.union m.nullable) places).contains p = true ↔
      places.contains p = true ∨ ∃ m ∈ ms, m.nullable.contains p = true := by
  induction ms generalizing places with
  | nil => simp
  | cons m ms ih =>
    rw [List.foldl_cons, ih, PlaceSet.contains_union, Bool.or_eq_true, or_assoc]
    simp only [List.mem_cons, exists_eq_or_imp]

/-- **Alternatives find what one of them finds**, and empty spans at the places that are given. -/
theorem choiceOf (places : PlaceSet) (parts : List (Machine × (Nat → Nat → Prop)))
    (hparts : ∀ part ∈ parts, Finds s w part.1 part.2) :
    Finds s w (.choiceOf places (parts.map Prod.fst)) fun i j =>
      i = j ∧ places.contains (s.place i) = true ∨ ∃ part ∈ parts, part.2 i j := by
  have hrests : ∀ m ∈ parts.map Prod.fst, m.Rests := forall_machines hparts (·.rests)
  have hhas := Machine.hasParts_choice
    ((parts.map Prod.fst).foldl (fun s m => s.union m.nullable) places) hrests
  exact
    { le := by
        rintro i j (⟨rfl, -⟩ | ⟨part, hmem, hspan⟩)
        · exact Nat.le_refl i
        · exact (hparts part hmem).le i j hspan
      rests := hhas.rests hrests
      ended_lt := hhas.ended_lt (fun _ _ _ _ he hk => Nat.or_lt_two_pow he hk)
        (forall_machines hparts (·.ended_lt))
      nullable := by
        rintro i (⟨-, hplace⟩ | ⟨part, hmem, hspan⟩)
        · exact (contains_foldl_union ..).2 (.inl hplace)
        · exact (contains_foldl_union ..).2
            (.inr ⟨part.1, List.mem_map_of_mem hmem, (hparts part hmem).nullable i hspan⟩)
      ended := by
        rintro enter henter i j b hlt (⟨rfl, -⟩ | ⟨part, hmem, hspan⟩) hb
        · exact absurd hlt (Nat.lt_irrefl i)
        · rw [Machine.choiceOf, (Scan.marks_hasParts hhas enter j).2, parts_same]
          exact testBit_gather_join.2 (.inr ⟨part.1, List.mem_map_of_mem hmem,
            (hparts part hmem).ended enter henter i j b hlt hspan hb⟩) }

/-! ### Rows -/

/-- A span that is made of one span after the other. -/
def InRow : List (Nat → Nat → Prop) → Nat → Nat → Prop
  | [], i, j => i = j
  | spans :: rest, i, k => ∃ j, spans i j ∧ InRow rest j k

theorem InRow.append {first rest : List (Nat → Nat → Prop)} {i j k : Nat} (hfirst : InRow first i j)
    (hrest : InRow rest j k) : InRow (first ++ rest) i k := by
  induction first generalizing i with
  | nil =>
    obtain rfl : i = j := hfirst
    exact hrest
  | cons spans first ih =>
    obtain ⟨l, hspan, hfirst⟩ := hfirst
    exact ⟨l, hspan, ih hfirst⟩

theorem InRow.le {parts : List (Machine × (Nat → Nat → Prop))}
    (hparts : ∀ part ∈ parts, Finds s w part.1 part.2) {i j : Nat}
    (h : InRow (parts.map Prod.snd) i j) : i ≤ j := by
  induction parts generalizing i with
  | nil => exact Nat.le_of_eq h
  | cons part parts ih =>
    obtain ⟨k, hspan, hrest⟩ := h
    exact Nat.le_trans ((hparts part (List.mem_cons_self ..)).le i k hspan)
      (ih (fun part hmem => hparts part (List.mem_cons_of_mem _ hmem)) hrest)

/-- Where a row of spans is empty, all of them are. -/
theorem InRow.self {part : Machine × (Nat → Nat → Prop)} {parts : List (Machine × (Nat → Nat → Prop))}
    (hparts : ∀ other ∈ part :: parts, Finds s w other.1 other.2) {i : Nat}
    (h : InRow ((part :: parts).map Prod.snd) i i) :
    part.2 i i ∧ InRow (parts.map Prod.snd) i i := by
  obtain ⟨k, hspan, hrest⟩ := h
  obtain rfl : i = k := Nat.le_antisymm ((hparts part (List.mem_cons_self ..)).le _ _ hspan)
    (InRow.le (fun other hmem => hparts other (List.mem_cons_of_mem _ hmem)) hrest)
  exact ⟨hspan, hrest⟩

/-- What has ended before parts that can be passed over has come through them. -/
theorem testBit_gather_pass {parts : List (Machine × (Nat → Nat → Prop))}
    (hparts : ∀ part ∈ parts, Finds s w part.1 part.2) {j : Nat}
    (hrow : InRow (parts.map Prod.snd) j j) {ended b : Nat} (hb : ended.testBit b = true)
    (ks : List Marks) : (Machine.gather (fun m => m.pass (s.place j)) ended ks
      (parts.map Prod.fst)).testBit b = true := by
  induction parts generalizing ended ks with
  | nil => exact hb
  | cons part parts ih =>
    obtain ⟨hspan, hrest⟩ := InRow.self hparts hrow
    have hnullable := (hparts part (List.mem_cons_self ..)).nullable j hspan
    exact ih (fun part hmem => hparts part (List.mem_cons_of_mem _ hmem)) hrest
      (Machine.testBit_pass_of_enter hnullable hb _) _

/-- What has entered parts at the start of a span has come through them at its end. The induction is
on the parts: the next of them is entered where this one has ended. -/
theorem testBit_gather_parts {parts : List (Machine × (Nat → Nat → Prop))}
    (hparts : ∀ part ∈ parts, Finds s w part.1 part.2) {i j : Nat} (hlt : i < j)
    (hrow : InRow (parts.map Prod.snd) i j) {enter : Nat → Nat} (henter : ∀ i, enter i < 2 ^ w)
    {b : Nat} (hb : (enter i).testBit b = true) (ended : Nat) :
    (Machine.gather (fun m => m.pass (s.place j)) ended
      (s.parts (fun p m => m.pass p) enter (parts.map Prod.fst) j)
      (parts.map Prod.fst)).testBit b = true := by
  induction parts generalizing i enter ended with
  | nil => exact absurd hrow (Nat.ne_of_lt hlt)
  | cons part parts ih =>
    obtain ⟨k, hspan, hrest⟩ := hrow
    have hpart := hparts part (List.mem_cons_self ..)
    have hparts' : ∀ part ∈ parts, Finds s w part.1 part.2 := fun part hmem =>
      hparts part (List.mem_cons_of_mem _ hmem)
    let onward (i : Nat) : Nat := part.1.pass (s.place i) (enter i) (s.marks part.1 enter i)
    have honward : ∀ i, onward i < 2 ^ w := fun i =>
      Machine.pass_lt _ _ _ _ (henter i) (hpart.ended_marks_lt enter i)
    rw [List.map_cons, Machine.gather, Scan.parts, List.headD_cons, List.tail_cons]
    rcases Nat.eq_or_lt_of_le (hpart.le i k hspan) with rfl | hik
    · exact ih hparts' hlt hrest honward
        (Machine.testBit_pass_of_enter (hpart.nullable i hspan) hb _) _
    · have hended := hpart.ended enter henter i k b hik hspan hb
      rcases Nat.eq_or_lt_of_le (InRow.le hparts' hrest) with rfl | hkj
      · exact testBit_gather_pass hparts' hrest
          (Machine.testBit_pass_of_ended _ _ _ hended) _
      · exact ih hparts' hkj hrest honward (Machine.testBit_pass_of_ended _ _ _ hended) _

theorem contains_foldl_inter (places : PlaceSet) (ms : List Machine) (p : Place) :
    (ms.foldl (fun s m => s.inter m.nullable) places).contains p = true ↔
      places.contains p = true ∧ ∀ m ∈ ms, m.nullable.contains p = true := by
  induction ms generalizing places with
  | nil => simp
  | cons m ms ih =>
    rw [List.foldl_cons, ih, PlaceSet.contains_inter, Bool.and_eq_true, and_assoc]
    simp only [List.mem_cons, forall_eq_or_imp]

/-- Where a row of spans is empty, all parts can be passed over. -/
theorem nullable_of_inRow {parts : List (Machine × (Nat → Nat → Prop))}
    (hparts : ∀ part ∈ parts, Finds s w part.1 part.2) {i : Nat}
    (hrow : InRow (parts.map Prod.snd) i i) :
    ∀ m ∈ parts.map Prod.fst, m.nullable.contains (s.place i) = true := by
  induction parts with
  | nil => exact fun _ hmem => nomatch hmem
  | cons part parts ih =>
    obtain ⟨hspan, hrest⟩ := InRow.self hparts hrow
    intro m hm
    rcases List.mem_cons.1 hm with rfl | hmem
    · exact (hparts part (List.mem_cons_self ..)).nullable i hspan
    · exact ih (fun part hmem => hparts part (List.mem_cons_of_mem _ hmem)) hrest m hmem

/-- A row finds rows of spans, however many parts it has. -/
theorem row (parts : List (Machine × (Nat → Nat → Prop)))
    (hparts : ∀ part ∈ parts, Finds s w part.1 part.2) :
    Finds s w (.row ((parts.map Prod.fst).foldl (fun s m => s.inter m.nullable) .all)
      (parts.map Prod.fst)) (InRow (parts.map Prod.snd)) := by
  have hrests : ∀ m ∈ parts.map Prod.fst, m.Rests := forall_machines hparts (·.rests)
  have hhas := Machine.hasParts_row
    ((parts.map Prod.fst).foldl (fun s m => s.inter m.nullable) .all) hrests
  exact
    { le := fun i j hrow => InRow.le hparts hrow
      rests := hhas.rests hrests
      ended_lt := hhas.ended_lt Machine.pass_lt (forall_machines hparts (·.ended_lt))
      nullable := fun i hrow => (contains_foldl_inter ..).2
        ⟨PlaceSet.contains_all _, nullable_of_inRow hparts hrow⟩
      ended := fun enter henter i j b hlt hrow hb => by
        rw [(Scan.marks_hasParts hhas enter j).2]
        exact testBit_gather_parts hparts hlt hrow henter hb 0 }

/-- **A row finds the spans that are made of one span after the other.** -/
theorem rowOf (parts : List (Machine × (Nat → Nat → Prop)))
    (hparts : ∀ part ∈ parts, Finds s w part.1 part.2) :
    Finds s w (.rowOf (parts.map Prod.fst)) (InRow (parts.map Prod.snd)) := by
  rcases parts with _ | ⟨part, _ | ⟨next, parts⟩⟩
  · exact row _ hparts
  · refine (hparts part (List.mem_cons_self ..)).mono fun i j hrow => ?_
    obtain ⟨k, hspan, rfl⟩ := hrow
    exact hspan
  · exact row _ hparts

/-! ### Loops -/

/-- A span that is made of `n` spans of a relation. -/
def Repeated (spans : Nat → Nat → Prop) : Nat → Nat → Nat → Prop
  | 0, i, j => i = j
  | n + 1, i, k => ∃ j, Repeated spans n i j ∧ spans j k

theorem Repeated.le (h : Finds s w m spans) {n i j : Nat} (hspans : Repeated spans n i j) :
    i ≤ j := by
  induction n generalizing j with
  | zero => exact Nat.le_of_eq hspans
  | succ n ih =>
    obtain ⟨k, hspans, hspan⟩ := hspans
    exact Nat.le_trans (ih hspans) (h.le k j hspan)

/-- The places at which a machine matches nothing at least `least` times. -/
theorem nullable_repeated (h : Finds s w m spans) {least n i : Nat} (hleast : least ≤ n)
    (hspans : Repeated spans n i i) :
    (if least = 0 then PlaceSet.all else m.nullable).contains (s.place i) = true := by
  split
  · exact PlaceSet.contains_all _
  · next hne =>
    obtain ⟨n, rfl⟩ := Nat.exists_eq_succ_of_ne_zero (n := n) (by omega)
    obtain ⟨k, hspans, hspan⟩ := hspans
    obtain rfl : i = k := Nat.le_antisymm (hspans.le h) (h.le k i hspan)
    exact h.nullable i hspan

/-- A loop runs its body, which it enters again where it has ended. -/
theorem marks_loop (places : PlaceSet) (m : Machine) (enter : Nat → Nat) (i : Nat) :
    s.marks (.loop places m) enter i =
      s.marks m (fun i => enter i ||| (s.marks (.loop places m) enter i).ended) i := by
  induction i with
  | zero => rfl
  | succ i ih =>
    rw [Scan.marks, Machine.shift, Scan.marks, ← ih]

/-- **A loop finds repeated spans.** -/
theorem loop (h : Finds s w m spans) (least : Nat) :
    Finds s w (.loop (if least = 0 then .all else m.nullable) m)
      fun i j => ∃ n, least ≤ n ∧ Repeated spans n i j where
  le i j := by
    rintro ⟨n, -, hspans⟩
    exact hspans.le h
  rests before after n := by
    rw [Machine.shift]
    exact h.rests before after n
  ended_lt before after n enter k := by
    rw [Machine.shift]
    exact h.ended_lt before after n _ k
  nullable i := by
    rintro ⟨n, hleast, hspans⟩
    exact nullable_repeated h hleast hspans
  ended enter henter i j b hlt := by
    rintro ⟨n, -, hspans⟩ hb
    let places := if least = 0 then PlaceSet.all else m.nullable
    let again (i : Nat) : Nat := enter i ||| (s.marks (.loop places m) enter i).ended
    have hagain : ∀ i, again i < 2 ^ w := by
      intro i
      refine Nat.or_lt_two_pow (henter i) ?_
      rw [marks_loop]
      exact h.ended_marks_lt _ i
    induction n generalizing j with
    | zero => exact absurd hspans (Nat.ne_of_lt hlt)
    | succ n ih =>
      obtain ⟨k, hspans, hspan⟩ := hspans
      rcases Nat.eq_or_lt_of_le (h.le k j hspan) with rfl | hkj
      · exact ih k hlt hspans
      · have hentered : (again k).testBit b = true := by
          show (enter k ||| _).testBit b = true
          rw [Nat.testBit_or]
          rcases Nat.eq_or_lt_of_le (hspans.le h) with rfl | hik
          · rw [hb, Bool.true_or]
          · rw [ih k hik hspans, Bool.or_true]
        rw [marks_loop]
        exact h.ended again hagain k j b hkj hspan hentered

end Finds

end MarkupFilter.Pattern
