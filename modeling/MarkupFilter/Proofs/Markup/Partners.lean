import Mathlib.Data.List.Induction
import MarkupFilter.Markup.Building

/-!
# Which end tag belongs to which start tag

The pieces of a text are told apart by their places, counted from zero. Tags are paired by name
alone, up to letter case: an end tag belongs to the last start tag of its name before it that is not
self-closing and does not have an end tag yet. Which tags stand in between does not count for this,
and neither does the tree. A piece that is not an end tag with a start tag becomes a node.

## Main definitions

* `Piece.waiting` — the start tags of a row that wait for their end tags.
* `Piece.opener?`, `Piece.closer?` — the start tag of an end tag, and the other way around.
* `Piece.nodePlaces` — the places of the pieces that become nodes.

## Main results

* `Piece.opener?_eq_some_iff` — the start tag of an end tag, said without the row of those that
  wait.
* `Piece.closer?_eq_some_iff` — the two partners determine each other.
* `Piece.opener?_append_singleton`, `Piece.closer?_append_singleton`,
  `Piece.nodePlaces_append_singleton` — what one more piece adds.
-/

set_option autoImplicit false

namespace MarkupFilter

/-! ## Start tags that wait -/

/-- A start tag that waits for its end tag: its place, and its name in small letters. -/
structure WaitingTag where
  place : Nat
  key : String
  deriving DecidableEq, Repr

namespace Piece

/-- The start tags that wait after a piece, if the given ones have waited before it. The last one is
the first of the list. -/
def wait (ws : List WaitingTag) (place : Nat) : Piece → List WaitingTag
  | .startTag e => if e.selfClosed then ws else ⟨place, AsciiCase.lower e.name⟩ :: ws
  | .endTag name _ => ws.eraseP fun w => w.key == AsciiCase.lower name
  | _ => ws

/-- The place of the start tag that gets its end tag from a piece. -/
def ends? (ws : List WaitingTag) : Piece → Option Nat
  | .endTag name _ => (ws.find? fun w => w.key == AsciiCase.lower name).map WaitingTag.place
  | _ => none

/-- The start tags of a row of pieces that wait for their end tags, the last one first. -/
def waiting (ps : List Piece) : List WaitingTag :=
  ps.zipIdx.foldl (fun ws p => wait ws p.2 p.1) []

/-- The place of the start tag to which the end tag at a place belongs. -/
def opener? (ps : List Piece) (place : Nat) : Option Nat :=
  ps[place]?.bind (ends? (waiting (ps.take place)))

/-- The place of the end tag that belongs to the start tag at a place. -/
def closer? (ps : List Piece) (place : Nat) : Option Nat :=
  (List.range ps.length).find? fun j => opener? ps j == some place

/-- The places of the pieces that become nodes: all but the end tags of start tags. -/
def nodePlaces (ps : List Piece) : List Nat :=
  (List.range ps.length).filter fun j => (opener? ps j).isNone

/-- A start tag of the given name, which is in small letters, stands at a place and may have an end
tag. -/
def OpensAt (ps : List Piece) (place : Nat) (key : String) : Prop :=
  ∃ e, ps[place]? = some (.startTag e) ∧ e.selfClosed = false ∧ AsciiCase.lower e.name = key

/-! ## One more piece -/

variable {ps : List Piece} {p : Piece} {i j : Nat} {key : String}

@[simp] theorem waiting_nil : waiting [] = [] := rfl

@[simp] theorem waiting_append_singleton (ps : List Piece) (p : Piece) :
    waiting (ps ++ [p]) = wait (waiting ps) ps.length p := by
  rw [waiting, List.zipIdx_append, List.foldl_append]
  simp [waiting]

theorem opener?_of_le (h : ps.length ≤ j) : opener? ps j = none := by
  rw [opener?, List.getElem?_eq_none h, Option.bind_none]

theorem lt_length_of_opener? (h : opener? ps j = some i) : j < ps.length := by
  by_contra hle
  rw [opener?_of_le (Nat.le_of_not_lt hle)] at h
  cases h

/-- What follows an end tag does not count for it. -/
theorem opener?_append_left (h : j < ps.length) (qs : List Piece) :
    opener? (ps ++ qs) j = opener? ps j := by
  rw [opener?, opener?, List.getElem?_append_left h, List.take_append_of_le_length (Nat.le_of_lt h)]

theorem opener?_append_length (ps : List Piece) (p : Piece) :
    opener? (ps ++ [p]) ps.length = ends? (waiting ps) p := by
  rw [opener?, List.getElem?_concat_length, Option.bind_some, List.take_left']
  rfl

theorem opener?_append_singleton :
    opener? (ps ++ [p]) j = some i ↔
      opener? ps j = some i ∨ j = ps.length ∧ ends? (waiting ps) p = some i := by
  rcases Nat.lt_trichotomy j ps.length with hlt | rfl | hgt
  · rw [opener?_append_left hlt]
    simp [Nat.ne_of_lt hlt]
  · rw [opener?_append_length, opener?_of_le (Nat.le_refl _)]
    simp
  · rw [opener?_of_le (Nat.le_of_lt hgt), opener?_of_le (by simp; omega)]
    simp [Nat.ne_of_gt hgt]

theorem opensAt_append_singleton :
    OpensAt (ps ++ [p]) i key ↔ OpensAt ps i key ∨
      i = ps.length ∧ ∃ e, p = .startTag e ∧ e.selfClosed = false ∧ AsciiCase.lower e.name = key := by
  unfold OpensAt
  rcases Nat.lt_trichotomy i ps.length with hlt | rfl | hgt
  · rw [List.getElem?_append_left hlt]
    simp [Nat.ne_of_lt hlt]
  · simp
  · rw [List.getElem?_eq_none (Nat.le_of_lt hgt), List.getElem?_eq_none (by simp; omega)]
    simp [Nat.ne_of_gt hgt]

theorem OpensAt.lt_length (h : OpensAt ps i key) : i < ps.length := by
  obtain ⟨e, he, -⟩ := h
  exact (List.getElem?_eq_some_iff.1 he).1

/-! ## What waits -/

/-- Either an end tag has no start tag, or it belongs to the first one of its name that waits. -/
theorem ends?_cases (ws : List WaitingTag) (name raw : String) (place : Nat) :
    ends? ws (.endTag name raw) = none ∧ wait ws place (.endTag name raw) = ws ∧
        (∀ w ∈ ws, w.key ≠ AsciiCase.lower name) ∨
      ∃ before w after, ws = before ++ w :: after ∧ w.key = AsciiCase.lower name ∧
        (∀ x ∈ before, x.key ≠ AsciiCase.lower name) ∧
        ends? ws (.endTag name raw) = some w.place ∧
        wait ws place (.endTag name raw) = before ++ after := by
  cases hfind : ws.find? fun w => w.key == AsciiCase.lower name with
  | none =>
    left
    have hnone := List.find?_eq_none.1 hfind
    refine ⟨by rw [ends?, hfind, Option.map_none], ?_, fun w hw => by simpa using hnone w hw⟩
    rw [wait, List.eraseP_of_forall_not hnone]
  | some w =>
    right
    obtain ⟨hkey, before, after, rfl, hbefore⟩ := List.find?_eq_some_iff_append.1 hfind
    have hother : ∀ x ∈ before, ¬ (x.key == AsciiCase.lower name) = true := by
      intro x hx
      simpa using hbefore x hx
    refine ⟨before, w, after, rfl, by simpa using hkey, fun x hx => by simpa using hother x hx,
      by rw [ends?, hfind, Option.map_some], ?_⟩
    rw [wait, List.eraseP_append_right _ hother]
    simp [hkey]

theorem place_lt_of_mem_waiting (ps : List Piece) : ∀ w ∈ waiting ps, w.place < ps.length := by
  induction ps using List.reverseRecOn with
  | nil => simp
  | append_singleton ps p ih =>
    intro w hw
    rw [List.length_append, List.length_singleton]
    rw [waiting_append_singleton] at hw
    cases p with
    | startTag e =>
      rw [wait] at hw
      split at hw
      · exact Nat.lt_succ_of_lt (ih w hw)
      · rcases List.mem_cons.1 hw with rfl | hw
        · exact Nat.lt_succ_self _
        · exact Nat.lt_succ_of_lt (ih w hw)
    | endTag name raw => exact Nat.lt_succ_of_lt (ih w (List.mem_of_mem_eraseP hw))
    | text raw => exact Nat.lt_succ_of_lt (ih w hw)
    | comment body => exact Nat.lt_succ_of_lt (ih w hw)
    | conditionalStart e => exact Nat.lt_succ_of_lt (ih w hw)
    | conditionalEnd raw => exact Nat.lt_succ_of_lt (ih w hw)

theorem exists_mem_of_ends? {ws : List WaitingTag} (h : ends? ws p = some i) :
    ∃ w ∈ ws, w.place = i := by
  cases p with
  | endTag name raw =>
    obtain ⟨w, hw, hplace⟩ := Option.map_eq_some_iff.1 h
    exact ⟨w, List.mem_of_find?_eq_some hw, hplace⟩
  | _ => cases h

/-- A start tag stands before its end tag. -/
theorem opener?_lt (h : opener? ps j = some i) : i < j := by
  obtain ⟨p, -, hends⟩ := Option.bind_eq_some_iff.1 h
  obtain ⟨w, hw, rfl⟩ := exists_mem_of_ends? hends
  have hlt := place_lt_of_mem_waiting _ w hw
  rw [List.length_take] at hlt
  exact Nat.lt_of_lt_of_le hlt (Nat.min_le_left _ _)

/-- What is known about the start tags that wait: later ones stand first, and they are those that
may have an end tag and have none. -/
structure WaitsFor (ps : List Piece) (ws : List WaitingTag) : Prop where
  ordered : ws.Pairwise fun a b => b.place < a.place
  mem_iff : ∀ w, w ∈ ws ↔ OpensAt ps w.place w.key ∧ ∀ j, opener? ps j ≠ some w.place

/-- A piece that ends nothing and begins nothing that waits changes nothing. -/
theorem WaitsFor.keep {ws : List WaitingTag} (h : WaitsFor ps ws)
    (hends : ends? (waiting ps) p = none)
    (hopens : ∀ e, p = .startTag e → e.selfClosed = true) : WaitsFor (ps ++ [p]) ws := by
  refine ⟨h.ordered, fun w => ?_⟩
  have hopens : OpensAt (ps ++ [p]) w.place w.key ↔ OpensAt ps w.place w.key := by
    rw [opensAt_append_singleton, or_iff_left]
    rintro ⟨-, e, he, hself, -⟩
    rw [hopens e he] at hself
    cases hself
  rw [h.mem_iff, hopens]
  simp only [ne_eq, opener?_append_singleton, hends, reduceCtorEq, and_false, or_false]

/-- A start tag waits in front of the others. -/
theorem WaitsFor.push {ws : List WaitingTag} (h : WaitsFor ps ws) {e : Element}
    (hself : e.selfClosed = false) :
    WaitsFor (ps ++ [.startTag e]) (⟨ps.length, AsciiCase.lower e.name⟩ :: ws) := by
  have hplace : ∀ w ∈ ws, w.place < ps.length := fun w hw => ((h.mem_iff w).1 hw).1.lt_length
  refine ⟨List.pairwise_cons.2 ⟨hplace, h.ordered⟩, fun w => ?_⟩
  have hopener : ∀ j, opener? (ps ++ [.startTag e]) j ≠ some w.place ↔
      opener? ps j ≠ some w.place := by
    intro j
    simp [opener?_append_singleton, ends?]
  simp only [List.mem_cons, h.mem_iff, opensAt_append_singleton, hopener, or_and_right]
  constructor
  · rintro (rfl | hw)
    · refine .inr ⟨⟨rfl, e, rfl, hself, rfl⟩, fun j hj => ?_⟩
      exact absurd (Nat.lt_trans (opener?_lt hj) (lt_length_of_opener? hj)) (Nat.lt_irrefl _)
    · exact .inl hw
  · rintro (hw | ⟨⟨hw, e', he', -, hkey⟩, -⟩)
    · exact .inr hw
    · obtain ⟨place, key⟩ := w
      cases he'
      cases hw
      cases hkey
      exact .inl rfl

/-- A start tag that gets its end tag does not wait any longer. -/
theorem WaitsFor.remove {before after : List WaitingTag} {w : WaitingTag} {name raw : String}
    (h : WaitsFor ps (before ++ w :: after))
    (hends : ends? (waiting ps) (.endTag name raw) = some w.place) :
    WaitsFor (ps ++ [.endTag name raw]) (before ++ after) := by
  obtain ⟨hbefore, hw, hacross⟩ := List.pairwise_append.1 h.ordered
  obtain ⟨hafter, hordered⟩ := List.pairwise_cons.1 hw
  have hmem : ∀ x, x ∈ before ++ after ↔ x ∈ before ++ w :: after ∧ x.place ≠ w.place := by
    intro x
    simp only [List.mem_append, List.mem_cons]
    constructor
    · rintro (hx | hx)
      · exact ⟨.inl hx, Nat.ne_of_gt (hacross x hx w (List.mem_cons_self ..))⟩
      · exact ⟨.inr (.inr hx), Nat.ne_of_lt (hafter x hx)⟩
    · rintro ⟨hx | rfl | hx, hne⟩
      · exact .inl hx
      · exact absurd rfl hne
      · exact .inr hx
  refine ⟨?_, fun x => ?_⟩
  · exact List.pairwise_append.2 ⟨hbefore, hordered, fun x hx y hy =>
      hacross x hx y (List.mem_cons_of_mem _ hy)⟩
  · have hopens : OpensAt (ps ++ [.endTag name raw]) x.place x.key ↔ OpensAt ps x.place x.key := by
      simp [opensAt_append_singleton]
    rw [hmem, h.mem_iff, hopens, and_assoc]
    refine and_congr_right fun _ => ?_
    simp only [ne_eq, opener?_append_singleton, hends, Option.some.injEq, not_or, not_and]
    constructor
    · exact fun ⟨hnone, hne⟩ j => ⟨hnone j, fun _ heq => hne heq.symm⟩
    · exact fun hnone => ⟨fun j => (hnone j).1, fun heq => (hnone _).2 rfl heq.symm⟩

/-- **The start tags that wait are those without an end tag.** By induction on the row from its end:
a start tag is put in front, and an end tag takes its start tag away. -/
theorem waitsFor_waiting (ps : List Piece) : WaitsFor ps (waiting ps) := by
  induction ps using List.reverseRecOn with
  | nil => exact ⟨List.Pairwise.nil, fun w => by simp [OpensAt]⟩
  | append_singleton ps p ih =>
    rw [waiting_append_singleton]
    cases p with
    | startTag e =>
      rw [wait]
      cases hself : e.selfClosed with
      | true => exact ih.keep rfl fun e' he' => by cases he'; exact hself
      | false => exact ih.push hself
    | endTag name raw =>
      rcases ends?_cases (waiting ps) name raw ps.length with
        ⟨hends, hwait, -⟩ | ⟨before, w, after, hsplit, -, -, hends, hwait⟩
      · rw [hwait]
        exact ih.keep hends (by simp)
      · rw [hwait]
        rw [hsplit] at ih
        exact ih.remove hends
    | text raw => exact ih.keep rfl (by simp)
    | comment body => exact ih.keep rfl (by simp)
    | conditionalStart e => exact ih.keep rfl (by simp)
    | conditionalEnd raw => exact ih.keep rfl (by simp)

/-! ## Partners -/

/-- Of two end tags only one belongs to a start tag. -/
theorem opener?_inj {j' : Nat} (h : opener? ps j = some i) (h' : opener? ps j' = some i) :
    j = j' := by
  by_contra hne
  wlog hlt : j < j' generalizing j j'
  · exact this h' h (Ne.symm hne) (by omega)
  obtain ⟨p, -, hends⟩ := Option.bind_eq_some_iff.1 h'
  obtain ⟨w, hw, rfl⟩ := exists_mem_of_ends? hends
  -- the start tag has waited until `j'`, so no end tag before has been its own
  refine (((waitsFor_waiting _).mem_iff w).1 hw).2 j ?_
  have hj : j < (ps.take j').length := by
    rw [List.length_take]
    exact Nat.lt_min.2 ⟨hlt, lt_length_of_opener? h⟩
  rw [← h, ← opener?_append_left hj (ps.drop j'), List.take_append_drop]

/-- **A start tag and its end tag determine each other.** -/
theorem closer?_eq_some_iff : closer? ps i = some j ↔ opener? ps j = some i := by
  rw [closer?]
  constructor
  · intro h
    simpa using List.find?_some h
  · intro h
    obtain ⟨k, hk⟩ : ∃ k, (List.range ps.length).find? (fun j => opener? ps j == some i) =
        some k := by
      rw [← Option.isSome_iff_exists, List.find?_isSome]
      exact ⟨j, List.mem_range.2 (lt_length_of_opener? h), by simpa using h⟩
    rw [hk, opener?_inj h (by simpa using List.find?_some hk)]

theorem closer?_eq_none_iff : closer? ps i = none ↔ ∀ j, opener? ps j ≠ some i := by
  simp only [← closer?_eq_some_iff, ne_eq, Option.eq_none_iff_forall_ne_some]

theorem lt_of_closer? (h : closer? ps i = some j) : i < j :=
  opener?_lt (closer?_eq_some_iff.1 h)

theorem lt_length_of_closer? (h : closer? ps i = some j) : j < ps.length :=
  lt_length_of_opener? (closer?_eq_some_iff.1 h)

theorem closer?_append_singleton :
    closer? (ps ++ [p]) i = some j ↔
      closer? ps i = some j ∨ j = ps.length ∧ ends? (waiting ps) p = some i := by
  rw [closer?_eq_some_iff, closer?_eq_some_iff, opener?_append_singleton]

/-- A start tag waits if it may have an end tag and has none. -/
theorem mem_waiting_iff {w : WaitingTag} :
    w ∈ waiting ps ↔ OpensAt ps w.place w.key ∧ closer? ps w.place = none := by
  rw [(waitsFor_waiting ps).mem_iff, closer?_eq_none_iff]

theorem mem_nodePlaces : j ∈ nodePlaces ps ↔ j < ps.length ∧ opener? ps j = none := by
  rw [nodePlaces, List.mem_filter, List.mem_range, Option.isNone_iff_eq_none]

theorem pairwise_nodePlaces (ps : List Piece) : (nodePlaces ps).Pairwise (· < ·) :=
  List.pairwise_lt_range.filter _

theorem nodePlaces_append_singleton (ps : List Piece) (p : Piece) :
    nodePlaces (ps ++ [p]) =
      nodePlaces ps ++ if (ends? (waiting ps) p).isNone then [ps.length] else [] := by
  have hold : (List.range ps.length).filter (fun j => (opener? (ps ++ [p]) j).isNone) =
      nodePlaces ps := by
    refine List.filter_congr fun j hj => ?_
    rw [opener?_append_left (List.mem_range.1 hj)]
  rw [nodePlaces, List.length_append, List.length_singleton, List.range_succ, List.filter_append,
    hold, List.filter_cons, opener?_append_length, List.filter_nil]

/-- A start tag becomes a node. -/
theorem mem_nodePlaces_of_opensAt (h : OpensAt ps i key) : i ∈ nodePlaces ps := by
  obtain ⟨e, he, -⟩ := h
  refine mem_nodePlaces.2 ⟨(List.getElem?_eq_some_iff.1 he).1, ?_⟩
  rw [opener?, he]
  rfl

/-- A start tag that has an end tag may have one. -/
theorem exists_opensAt (h : opener? ps j = some i) : ∃ key, OpensAt ps i key := by
  obtain ⟨p, -, hends⟩ := Option.bind_eq_some_iff.1 h
  obtain ⟨w, hw, rfl⟩ := exists_mem_of_ends? hends
  obtain ⟨e, he, hself⟩ := (mem_waiting_iff.1 hw).1
  rw [List.getElem?_take] at he
  split at he
  · exact ⟨_, e, he, hself⟩
  · cases he

end Piece

end MarkupFilter
