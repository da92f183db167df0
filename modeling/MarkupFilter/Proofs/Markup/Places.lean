import MarkupFilter.Proofs.Markup.LateEnds
import MarkupFilter.Proofs.Markup.Nesting
import MarkupFilter.Proofs.Markup.Partners
import MarkupFilter.Proofs.Markup.Pieces

/-!
# The tree of a text, by places

The tree of a text is determined by which end tag belongs to which start tag. Its nodes are the
pieces that become nodes, in their order; an element reaches as far as its own end tag, and it ends
late if in between an end tag of an earlier start tag was read.

## Main definitions

* `Piece.content` — the node that a piece becomes.
* `Piece.PassedOver` — the end tag of an earlier start tag stands behind a start tag.
* `Piece.contentAt`, `Piece.reach` — what the piece at a place becomes, and how far it reaches.

## Main results

* `Piece.exists_follows` — the invariant along the pieces.
* `Markup.parse_eq_places` — the tree of a text.
-/

set_option autoImplicit false

namespace MarkupFilter

open OpenElements (Represents)

/-! ## Trees by reach -/

/-- Nodes form the trees that their numbers form by reach, if the extent of each is the number of
those after it that are below its reach. -/
theorem Outline.trees_eq_nest (content : Nat → Content) (extent reach : Nat → Nat) (l : List Nat)
    (h : ∀ i b, (i :: b) <:+: l → b.take (extent i) = b.takeWhile (· < reach i)) :
    trees (l.map fun i => ⟨content i, extent i⟩) = Tree.mapAll content (Tree.nest reach l) := by
  induction hn : l.length using Nat.strongRecOn generalizing l with
  | _ n ih =>
    cases l with
    | nil =>
      rw [List.map_nil, trees_nil, Tree.nest]
      rfl
    | cons i l =>
      have htake := h i l (List.infix_refl _)
      have hdrop : l.drop (extent i) = l.dropWhile (· < reach i) := by
        have hsplit := List.take_append_drop (extent i) l
        rw [htake] at hsplit
        exact List.append_cancel_left (hsplit.trans List.takeWhile_append_dropWhile.symm)
      have hinside := ih (l.takeWhile (· < reach i)).length
        (hn ▸ Nat.lt_succ_of_le (List.takeWhile_sublist _).length_le) _
        (fun k b hb => h k b (hb.trans ((List.takeWhile_prefix _).isInfix.trans
          (List.suffix_cons i l).isInfix))) rfl
      have hafter := ih (l.dropWhile (· < reach i)).length
        (hn ▸ Nat.lt_succ_of_le (List.dropWhile_sublist _).length_le) _
        (fun k b hb => h k b (hb.trans ((List.dropWhile_suffix _).isInfix.trans
          (List.suffix_cons i l).isInfix))) rfl
      rw [List.map_cons, trees_cons, Tree.nest_cons, Tree.mapAll, Tree.map]
      dsimp only
      rw [← List.map_take, ← List.map_drop, htake, hdrop, hinside, hafter]

/-- Of numbers in ascending order those below a bound come first. -/
theorem countP_lt_eq {l : List Nat} (hl : l.Pairwise (· < ·)) (r : Nat) :
    l.countP (· < r) = (l.takeWhile (· < r)).length := by
  have htake : (l.takeWhile (· < r)).countP (· < r) = (l.takeWhile (· < r)).length :=
    List.countP_eq_length.2 fun x hx => by simpa using Tree.lt_of_mem_takeWhile hx
  have hdrop : (l.dropWhile (· < r)).countP (· < r) = 0 :=
    List.countP_eq_zero.2 fun x hx => by simpa using Tree.le_of_mem_dropWhile hl hx
  have hsplit := List.takeWhile_append_dropWhile (p := (· < r)) (l := l)
  rw [← hsplit, List.countP_append, htake, hdrop, hsplit, Nat.add_zero]

/-- Of numbers in ascending order those between two bounds are a stretch. -/
theorem take_countP_between {l : List Nat} (hl : l.Pairwise (· < ·)) {i r : Nat} {b : List Nat}
    (h : (i :: b) <:+: l) :
    b.take (l.countP fun x => i < x ∧ x < r) = b.takeWhile (· < r) := by
  obtain ⟨before, after, rfl⟩ := h
  rw [List.append_assoc, List.cons_append] at hl
  obtain ⟨-, hrest, hacross⟩ := List.pairwise_append.1 hl
  obtain ⟨hi, hsorted⟩ := List.pairwise_cons.1 hrest
  have hbefore : before.countP (fun x => i < x ∧ x < r) = 0 := by
    refine List.countP_eq_zero.2 fun x hx => ?_
    have hlt := hacross x hx i (List.mem_cons_self ..)
    simpa using fun hgt => absurd hgt (Nat.lt_asymm hlt)
  have hcount : (b ++ after).countP (fun x => i < x ∧ x < r) =
      ((b ++ after).takeWhile (· < r)).length := by
    rw [← countP_lt_eq hsorted]
    refine List.countP_congr fun x hx => ?_
    simp [hi x hx]
  rw [List.append_assoc, List.cons_append, List.countP_append, hbefore, Nat.zero_add,
    List.countP_cons_of_neg (by simp), hcount, List.takeWhile_append]
  split
  · next hall =>
    have heq : b.takeWhile (· < r) = b := (List.takeWhile_prefix _).eq_of_length hall
    rw [heq, List.length_append, List.take_of_length_le (Nat.le_add_right _ _)]
  · exact (List.prefix_iff_eq_take.1 (List.takeWhile_prefix _)).symm

namespace Piece

/-! ## What becomes of a piece -/

/-- The node that a piece becomes. -/
def content : Piece → Content
  | .text raw => .text raw
  | .comment body => .comment body
  | .startTag e => .element e
  | .endTag name raw => .stray raw (.endTag name)
  | .conditionalStart e => .element e
  | .conditionalEnd raw => .stray raw .conditional

/-- Between two places stands the end tag of a start tag before the first of them. -/
def PassedOver (ps : List Piece) (i j : Nat) : Prop :=
  ∃ k < j, i < k ∧ ∃ i' < i, opener? ps k = some i'

instance (ps : List Piece) (i j : Nat) : Decidable (PassedOver ps i j) :=
  inferInstanceAs (Decidable (∃ k < j, i < k ∧ ∃ i' < i, opener? ps k = some i'))

/-- What becomes of the end tag of the start tag at a place. -/
def endingAt (ps : List Piece) (i : Nat) : Ending :=
  match closer? ps i with
  | some j => if PassedOver ps i j then .crossClosed else .closed
  | none => if PassedOver ps i ps.length then .overdue else .missing

/-- The node that the piece at a place becomes. -/
def contentAt (ps : List Piece) (i : Nat) : Content :=
  match ps[i]? with
  | some (.startTag e) => .element (if e.selfClosed then e else { e with ending := endingAt ps i })
  | some p => p.content
  | none => .fragment

/-- The place of its end tag, before which what a start tag contains must stand. Nothing stands
before place zero. -/
def reach (ps : List Piece) (i : Nat) : Nat :=
  (closer? ps i).getD 0

/-- The node of a place in an outline. -/
def outlinedAt (ps : List Piece) (i : Nat) : Outlined :=
  ⟨contentAt ps i, (nodePlaces ps).countP fun x => i < x ∧ x < reach ps i⟩

variable {ps : List Piece} {p : Piece} {i j : Nat}

theorem passedOver_iff :
    PassedOver ps i j ↔ ∃ i' j', i' < i ∧ closer? ps i' = some j' ∧ i < j' ∧ j' < j := by
  simp only [closer?_eq_some_iff]
  exact ⟨fun ⟨k, hk, hik, i', hi', h⟩ => ⟨i', k, hi', h, hik, hk⟩,
    fun ⟨i', k, hi', h, hik, hk⟩ => ⟨k, hk, hik, i', hi', h⟩⟩

/-- Later pieces do not count. -/
theorem passedOver_append (h : j ≤ ps.length) (qs : List Piece) :
    PassedOver (ps ++ qs) i j ↔ PassedOver ps i j := by
  refine exists_congr fun k => and_congr_right fun hk => ?_
  rw [opener?_append_left (Nat.lt_of_lt_of_le hk h)]

theorem passedOver_append_singleton :
    PassedOver (ps ++ [p]) i (ps.length + 1) ↔
      PassedOver ps i ps.length ∨ i < ps.length ∧ ∃ i' < i, ends? (waiting ps) p = some i' := by
  rw [← passedOver_append (Nat.le_refl _) [p], ← opener?_append_length]
  constructor
  · rintro ⟨k, hk, hik, i', hi', h⟩
    rcases Nat.lt_succ_iff_lt_or_eq.1 hk with hk | rfl
    · exact .inl ⟨k, hk, hik, i', hi', h⟩
    · exact .inr ⟨hik, i', hi', h⟩
  · rintro (⟨k, hk, hrest⟩ | ⟨hi, i', hi', h⟩)
    · exact ⟨k, Nat.lt_succ_of_lt hk, hrest⟩
    · exact ⟨_, Nat.lt_succ_self _, hi, i', hi', h⟩

theorem reach_of_closer? (h : closer? ps i = some j) : reach ps i = j := by
  rw [reach, h, Option.getD_some]

theorem reach_of_none (h : closer? ps i = none) : reach ps i = 0 := by
  rw [reach, h, Option.getD_none]

/-! ## One more piece -/

/-- The last piece has no end tag yet. -/
theorem closer?_append_length (ps : List Piece) (p : Piece) :
    closer? (ps ++ [p]) ps.length = none := by
  refine Option.eq_none_iff_forall_ne_some.2 fun j hj => ?_
  have hgt := lt_of_closer? hj
  have hlt := lt_length_of_closer? hj
  rw [List.length_append, List.length_singleton] at hlt
  omega

/-- The end of a start tag stays if its end tag does, and if nothing passes over it now. -/
theorem endingAt_append_singleton (hcloser : closer? (ps ++ [p]) i = closer? ps i)
    (hpassed : closer? ps i = none →
      ¬ (i < ps.length ∧ ∃ i' < i, ends? (waiting ps) p = some i')) :
    endingAt (ps ++ [p]) i = endingAt ps i := by
  rw [endingAt, endingAt, hcloser, List.length_append, List.length_singleton]
  cases hj : closer? ps i with
  | some j => simp only [passedOver_append (Nat.le_of_lt (lt_length_of_closer? hj))]
  | none => simp only [passedOver_append_singleton, hpassed hj, or_false]

/-- The last piece has become what it is. -/
theorem outlinedAt_append_length (ps : List Piece) (hp : p.WellRead) :
    outlinedAt (ps ++ [p]) ps.length = ⟨p.content, 0⟩ := by
  have hcloser := closer?_append_length ps p
  have hpassed : ¬ PassedOver (ps ++ [p]) ps.length (ps.length + 1) := by
    rintro ⟨k, hk, hgt, -⟩
    omega
  have hending : endingAt (ps ++ [p]) ps.length = .missing := by
    rw [endingAt, hcloser, List.length_append, List.length_singleton]
    exact if_neg hpassed
  have hcontent : contentAt (ps ++ [p]) ps.length = p.content := by
    rw [contentAt, List.getElem?_concat_length, hending]
    cases p with
    | startTag e =>
      dsimp only [content]
      rw [← hp.ending, ite_self]
    | _ => rfl
  have hextent : (nodePlaces (ps ++ [p])).countP
      (fun x => ps.length < x ∧ x < reach (ps ++ [p]) ps.length) = 0 := by
    rw [reach_of_none hcloser]
    simp
  rw [outlinedAt, hcontent, hextent]

/-- A piece that ends nothing changes no other one. -/
theorem outlinedAt_keep (h : ends? (waiting ps) p = none) (hi : i < ps.length) :
    outlinedAt (ps ++ [p]) i = outlinedAt ps i := by
  have hcloser : closer? (ps ++ [p]) i = closer? ps i := by
    ext j
    simp only [closer?_append_singleton, h, reduceCtorEq, and_false, or_false]
  have hending : endingAt (ps ++ [p]) i = endingAt ps i :=
    endingAt_append_singleton hcloser (by simp [h])
  have hreach : reach (ps ++ [p]) i = reach ps i := by
    rw [reach, reach, hcloser]
  have hle : ¬ (i < ps.length ∧ ps.length < reach ps i) := by
    rintro ⟨-, hlt⟩
    cases hj : closer? ps i with
    | some j =>
      rw [reach_of_closer? hj] at hlt
      exact Nat.lt_asymm hlt (lt_length_of_closer? hj)
    | none =>
      rw [reach_of_none hj] at hlt
      exact Nat.not_lt_zero _ hlt
  rw [outlinedAt, outlinedAt, contentAt, contentAt, hending, List.getElem?_append_left hi,
    nodePlaces_append_singleton, h, hreach, List.countP_append]
  simp [hle]

section Ends

variable {i₀ : Nat}

theorem closer?_append_of_ne (h : ends? (waiting ps) p = some i₀) (hne : i ≠ i₀) :
    closer? (ps ++ [p]) i = closer? ps i := by
  ext j
  simp [closer?_append_singleton, h, Ne.symm hne]

theorem nodePlaces_append_of_ends (h : ends? (waiting ps) p = some i₀) :
    nodePlaces (ps ++ [p]) = nodePlaces ps := by
  simp [nodePlaces_append_singleton, h]

/-- The node of a start tag that may have an end tag. -/
theorem outlinedAt_startTag {e : Element} (he : ps[i]? = some (.startTag e))
    (hself : e.selfClosed = false) :
    outlinedAt ps i = ⟨.element { e with ending := endingAt ps i },
      (nodePlaces ps).countP fun x => i < x ∧ x < reach ps i⟩ := by
  rw [outlinedAt, contentAt, he]
  simp [hself]

/-- That node before and after one more piece. -/
theorem outlinedAt_of_opensAt {key : String} (h : OpensAt ps i key) (p : Piece) :
    ∃ e : Element,
      outlinedAt ps i = ⟨.element { e with ending := endingAt ps i },
        (nodePlaces ps).countP fun x => i < x ∧ x < reach ps i⟩ ∧
      outlinedAt (ps ++ [p]) i = ⟨.element { e with ending := endingAt (ps ++ [p]) i },
        (nodePlaces (ps ++ [p])).countP fun x => i < x ∧ x < reach (ps ++ [p]) i⟩ := by
  have hi := h.lt_length
  obtain ⟨e, he, hself, -⟩ := h
  exact ⟨e, outlinedAt_startTag he hself,
    outlinedAt_startTag ((List.getElem?_append_left hi).trans he) hself⟩

/-- A start tag that may have an end tag becomes an element. -/
theorem contentAt_of_opensAt {key : String} (h : OpensAt ps i key) :
    ∃ e, contentAt ps i = .element e := by
  obtain ⟨e, he, -⟩ := h
  rw [contentAt, he]
  exact ⟨_, rfl⟩

/-- **The start tag that gets its end tag** now contains all nodes after it. -/
theorem outlinedAt_ended {key : String} (h : ends? (waiting ps) p = some i₀)
    (hopens : OpensAt ps i₀ key) :
    outlinedAt (ps ++ [p]) i₀ =
      { (outlinedAt ps i₀).withEnding (if PassedOver ps i₀ ps.length then .crossClosed else .closed)
          with extent := (nodePlaces ps).countP (i₀ < ·) } := by
  obtain ⟨e, hold, hnew⟩ := outlinedAt_of_opensAt hopens p
  have hcloser : closer? (ps ++ [p]) i₀ = some ps.length :=
    closer?_append_singleton.2 (.inr ⟨rfl, h⟩)
  rw [hnew, hold, Outlined.withEnding, nodePlaces_append_of_ends h, reach_of_closer? hcloser,
    endingAt, hcloser]
  dsimp only
  simp only [passedOver_append (Nat.le_refl _)]
  congr 1
  refine List.countP_congr fun x hx => ?_
  simp [(mem_nodePlaces.1 hx).1]

/-- A start tag that waits and stands after the one that gets its end tag is overdue. -/
theorem outlinedAt_passed {key : String} (h : ends? (waiting ps) p = some i₀)
    (hopens : OpensAt ps i key) (hwaits : closer? ps i = none) (hlt : i₀ < i) :
    outlinedAt (ps ++ [p]) i = (outlinedAt ps i).withEnding .overdue := by
  obtain ⟨e, hold, hnew⟩ := outlinedAt_of_opensAt hopens p
  have hcloser : closer? (ps ++ [p]) i = none :=
    (closer?_append_of_ne h (Nat.ne_of_gt hlt)).trans hwaits
  have hpassed : PassedOver (ps ++ [p]) i (ps.length + 1) :=
    passedOver_append_singleton.2 (.inr ⟨hopens.lt_length, i₀, hlt, h⟩)
  rw [hnew, hold, Outlined.withEnding, nodePlaces_append_of_ends h, reach_of_none hcloser,
    reach_of_none hwaits, endingAt, hcloser, List.length_append, List.length_singleton]
  dsimp only
  rw [if_pos hpassed]

/-- An overdue element stays overdue. -/
theorem outlinedAt_overdue {key : String} (hopens : OpensAt ps i key)
    (hwaits : closer? ps i = none) (hpassed : PassedOver ps i ps.length) :
    (outlinedAt ps i).withEnding .overdue = outlinedAt ps i := by
  obtain ⟨e, he, hself, -⟩ := hopens
  rw [outlinedAt_startTag he hself, Outlined.withEnding, endingAt, hwaits]
  dsimp only
  rw [if_pos hpassed]

/-- Every other node stays as it is. -/
theorem outlinedAt_other (h : ends? (waiting ps) p = some i₀) (hi : i < ps.length) (hne : i ≠ i₀)
    (hother : ∀ key, OpensAt ps i key → closer? ps i = none → i < i₀) :
    outlinedAt (ps ++ [p]) i = outlinedAt ps i := by
  have hcloser := closer?_append_of_ne h hne
  have hcontent : contentAt (ps ++ [p]) i = contentAt ps i := by
    rw [contentAt, contentAt, List.getElem?_append_left hi]
    split
    · next e he =>
      cases hself : e.selfClosed with
      | true => rfl
      | false =>
        rw [endingAt_append_singleton hcloser]
        rintro hwaits ⟨-, i', hi', heq⟩
        cases h.symm.trans heq
        exact Nat.lt_asymm (hother _ ⟨e, he, hself, rfl⟩ hwaits) hi'
    · rfl
    · rfl
  rw [outlinedAt, outlinedAt, hcontent, nodePlaces_append_of_ends h, reach, reach, hcloser]

end Ends

/-! ## The invariant -/

/-- An open element, of which the number and the place are known, as a start tag that waits. -/
def entryTag (e : OpenEntry (Nat × Nat)) : WaitingTag :=
  ⟨e.item.2, e.key⟩

@[simp] theorem entryTag_delay (e : OpenEntry (Nat × Nat)) : entryTag e.delay = entryTag e := rfl

/-- What is known once some pieces are read, where the items of the open elements are their numbers
and places: the open elements are the start tags that wait, and all nodes are what becomes of their
pieces. -/
structure Follows (ps : List Piece) (es : List (OpenEntry (Nat × Nat))) : Prop where
  opened : (Outline.ofPieces ps).openElements.Represents (es.map (OpenEntry.map Prod.fst))
  waits : es.map entryTag = waiting ps
  numbers : ∀ e ∈ es, (nodePlaces ps)[e.item.1]? = some e.item.2
  overdue : ∀ e ∈ es, e.overdue = true ↔ PassedOver ps e.item.2 ps.length
  nodes : (Outline.ofPieces ps).nodes.toList = (nodePlaces ps).map (outlinedAt ps)

namespace Follows

variable {es : List (OpenEntry (Nat × Nat))}

theorem empty : Follows [] [] :=
  ⟨Represents.empty, rfl, by simp, by simp, rfl⟩

theorem opensAt (h : Follows ps es) {e : OpenEntry (Nat × Nat)} (he : e ∈ es) :
    OpensAt ps e.item.2 e.key ∧ closer? ps e.item.2 = none :=
  mem_waiting_iff.1 (h.waits ▸ List.mem_map_of_mem he : entryTag e ∈ waiting ps)

/-- An entry that is open for a place where a start tag waits. -/
theorem exists_entry (h : Follows ps es) {key : String} (hopens : OpensAt ps i key)
    (hwaits : closer? ps i = none) : ∃ e ∈ es, e.item.2 = i := by
  have hmem : (⟨i, key⟩ : WaitingTag) ∈ waiting ps := mem_waiting_iff.2 ⟨hopens, hwaits⟩
  rw [← h.waits] at hmem
  obtain ⟨e, he, htag⟩ := List.mem_map.1 hmem
  exact ⟨e, he, congrArg WaitingTag.place htag⟩

/-- Of the entries around one, those in front have later places and those behind earlier ones. -/
theorem around {before after : List (OpenEntry (Nat × Nat))} {e : OpenEntry (Nat × Nat)}
    (h : Follows ps (before ++ e :: after)) :
    (∀ x ∈ before, e.item.2 < x.item.2) ∧ ∀ x ∈ after, x.item.2 < e.item.2 := by
  have hordered := (waitsFor_waiting ps).ordered
  rw [← h.waits, List.pairwise_map] at hordered
  obtain ⟨-, hrest, hacross⟩ := List.pairwise_append.1 hordered
  exact ⟨fun x hx => hacross x hx e (List.mem_cons_self ..), (List.pairwise_cons.1 hrest).1⟩

theorem size_nodes (h : Follows ps es) :
    (Outline.ofPieces ps).nodes.size = (nodePlaces ps).length := by
  rw [← Array.length_toList, h.nodes, List.length_map]

/-! ### One more node -/

/-- The nodes if one more piece becomes a node. -/
theorem nodes_append (h : Follows ps es) (hp : p.WellRead) (hends : ends? (waiting ps) p = none)
    (hadd : ((Outline.ofPieces ps).add p).nodes.toList =
      (Outline.ofPieces ps).nodes.toList ++ [⟨p.content, 0⟩]) :
    (Outline.ofPieces (ps ++ [p])).nodes.toList =
      (nodePlaces (ps ++ [p])).map (outlinedAt (ps ++ [p])) := by
  have hold : (nodePlaces ps).map (outlinedAt (ps ++ [p])) =
      (nodePlaces ps).map (outlinedAt ps) :=
    List.map_congr_left fun i hi => outlinedAt_keep hends (mem_nodePlaces.1 hi).1
  rw [ofPieces_append_singleton, hadd, h.nodes, nodePlaces_append_singleton, hends, List.map_append,
    hold]
  simp [outlinedAt_append_length ps hp]

/-- The entries stay as they are when a piece becomes a node. -/
theorem old (h : Follows ps es) (hends : ends? (waiting ps) p = none) :
    ∀ e ∈ es, (nodePlaces (ps ++ [p]))[e.item.1]? = some e.item.2 ∧
      (e.overdue = true ↔ PassedOver (ps ++ [p]) e.item.2 (ps.length + 1)) := by
  intro e he
  have hnumber := h.numbers e he
  refine ⟨?_, ?_⟩
  · rw [nodePlaces_append_singleton,
      List.getElem?_append_left (List.getElem?_eq_some_iff.1 hnumber).1, hnumber]
  · simp [passedOver_append_singleton, hends, h.overdue e he]

/-- A piece that ends nothing and does not wait. -/
theorem leaf (h : Follows ps es) (hp : p.WellRead) (hends : ends? (waiting ps) p = none)
    (hwait : wait (waiting ps) ps.length p = waiting ps)
    (hadd : (Outline.ofPieces ps).add p = (Outline.ofPieces ps).append p.content) :
    Follows (ps ++ [p]) es := by
  refine ⟨?_, ?_, fun e he => (h.old hends e he).1, fun e he => ?_, h.nodes_append hp hends ?_⟩
  · rw [ofPieces_append_singleton, hadd]
    exact h.opened
  · rw [waiting_append_singleton, hwait, h.waits]
  · rw [List.length_append, List.length_singleton]
    exact (h.old hends e he).2
  · rw [hadd, Outline.toList_append]

/-- A start tag that waits for its end tag. -/
theorem push (h : Follows ps es) {e : Element} (hp : (startTag e).WellRead)
    (hself : e.selfClosed = false) :
    Follows (ps ++ [.startTag e]) (⟨(Outline.ofPieces ps).openElements.nextNumber,
      AsciiCase.lower e.name, false, ((nodePlaces ps).length, ps.length)⟩ :: es) := by
  have hends : ends? (waiting ps) (.startTag e) = none := rfl
  refine ⟨?_, ?_, ?_, ?_, h.nodes_append hp hends (Outline.toList_startTag _ e)⟩
  · rw [ofPieces_append_singleton, Outline.openElements_startTag, hself, h.size_nodes]
    exact h.opened.push e.name (nodePlaces ps).length
  · rw [waiting_append_singleton, wait, hself, List.map_cons, h.waits]
    rfl
  · refine List.forall_mem_cons.2 ⟨?_, fun x hx => (h.old hends x hx).1⟩
    rw [nodePlaces_append_singleton, hends]
    simp
  · rw [List.length_append, List.length_singleton]
    refine List.forall_mem_cons.2 ⟨?_, fun x hx => (h.old hends x hx).2⟩
    refine iff_of_false Bool.false_ne_true ?_
    rintro ⟨k, hk, hgt, -⟩
    exact Nat.not_lt_of_le (Nat.le_of_lt_succ hk) hgt

end Follows

/-! ### One more end -/

/-- A place among those of the nodes has one number. -/
theorem number_unique {m m' : Nat} (h : (nodePlaces ps)[m]? = some i)
    (h' : (nodePlaces ps)[m']? = some i) : m = m' :=
  (List.getElem?_inj (List.getElem?_eq_some_iff.1 h).1
    ((pairwise_nodePlaces ps).imp Nat.ne_of_lt)).1 (h.trans h'.symm)

/-- In ascending order, the numbers after one are greater. -/
theorem countP_gt_eq {l : List Nat} (hl : l.Pairwise (· < ·)) {m : Nat} (h : l[m]? = some i) :
    l.countP (i < ·) = l.length - (m + 1) := by
  obtain ⟨hm, hget⟩ := List.getElem?_eq_some_iff.1 h
  have hsplit : l = l.take m ++ i :: l.drop (m + 1) := by
    rw [← hget, ← List.drop_eq_getElem_cons hm, List.take_append_drop]
  rw [hsplit] at hl
  obtain ⟨-, hrest, hacross⟩ := List.pairwise_append.1 hl
  have hbefore : (l.take m).countP (i < ·) = 0 := by
    refine List.countP_eq_zero.2 fun x hx => ?_
    simpa using Nat.le_of_lt (hacross x hx i (List.mem_cons_self ..))
  have hafter : (l.drop (m + 1)).countP (i < ·) = (l.drop (m + 1)).length :=
    List.countP_eq_length.2 fun x hx => by simpa using (List.pairwise_cons.1 hrest).1 x hx
  rw [hsplit, List.countP_append, hbefore, List.countP_cons_of_neg (by simp), hafter, ← hsplit,
    List.length_drop, Nat.zero_add]

end Piece

theorem Outlined.withEnding_withEnding (a b : Ending) (o : Outlined) :
    (o.withEnding a).withEnding b = o.withEnding b := by
  obtain ⟨content, extent⟩ := o
  cases content <;> rfl

namespace Outline

theorem size_delays (o : Outline) (numbers : List Nat) :
    (numbers.foldl delay o).nodes.size = o.nodes.size := by
  induction numbers generalizing o with
  | nil => rfl
  | cons number numbers ih => rw [List.foldl_cons, ih, delay, Array.size_modify]

theorem getElem?_delays (o : Outline) (numbers : List Nat) (m : Nat) :
    (numbers.foldl delay o).nodes.toList[m]? = o.nodes.toList[m]?.map fun x =>
      if m ∈ numbers then x.withEnding .overdue else x := by
  induction numbers generalizing o with
  | nil => simp
  | cons number numbers ih =>
    rw [List.foldl_cons, ih, delay, Array.toList_modify, List.getElem?_modify]
    cases o.nodes.toList[m]? with
    | none => rfl
    | some x =>
      by_cases hm : number = m
      · subst hm
        simp [Outlined.withEnding_withEnding]
      · simp [hm, Ne.symm hm]

/-- What an end tag does to each node. -/
theorem getElem?_close (o : Outline) (c : Closure Nat) (m : Nat) :
    (o.close c).nodes.toList[m]? = o.nodes.toList[m]?.map fun x =>
      if m = c.item then
        { x.withEnding (if c.overdue then .crossClosed else .closed)
          with extent := o.nodes.size - (c.item + 1) }
      else if m ∈ c.skipped then x.withEnding .overdue else x := by
  have hsize := size_delays { o with openElements := c.remaining } c.skipped
  rw [close, finish, Array.toList_modify, List.getElem?_modify, getElem?_delays, hsize]
  cases o.nodes.toList[m]? with
  | none => rfl
  | some x =>
    by_cases hm : c.item = m
    · subst hm
      by_cases hskipped : c.item ∈ c.skipped
      · simp [hskipped, Outlined.withEnding_withEnding]
      · simp [hskipped]
    · simp [hm, Ne.symm hm]

end Outline

namespace Piece

variable {ps : List Piece} {p : Piece} {i j : Nat}

namespace Follows

variable {es : List (OpenEntry (Nat × Nat))}

/-- The node of an entry, when an earlier start tag gets its end tag. -/
theorem outlinedAt_before (h : Follows ps es) {e : OpenEntry (Nat × Nat)} (he : e ∈ es)
    {i₀ : Nat} (hends : ends? (waiting ps) p = some i₀) (hlt : i₀ < e.item.2) :
    outlinedAt (ps ++ [p]) e.item.2 =
      if e.overdue then outlinedAt ps e.item.2
      else (outlinedAt ps e.item.2).withEnding .overdue := by
  obtain ⟨hopens, hwaits⟩ := h.opensAt he
  rw [outlinedAt_passed hends hopens hwaits hlt]
  split
  · next hover => exact outlinedAt_overdue hopens hwaits ((h.overdue e he).1 hover)
  · rfl

/-- The node of any other place than those of the entries in front of the closed one. -/
theorem outlinedAt_behind {before after : List (OpenEntry (Nat × Nat))} {e : OpenEntry (Nat × Nat)}
    (h : Follows ps (before ++ e :: after)) (hends : ends? (waiting ps) p = some e.item.2)
    (hi : i < ps.length) (hne : i ≠ e.item.2) (hbefore : ∀ x ∈ before, x.item.2 ≠ i) :
    outlinedAt (ps ++ [p]) i = outlinedAt ps i := by
  refine outlinedAt_other hends hi hne fun key hopens hwaits => ?_
  obtain ⟨x, hx, rfl⟩ := h.exists_entry hopens hwaits
  rcases List.mem_append.1 hx with hx | hx
  · exact absurd rfl (hbefore x hx)
  · rcases List.mem_cons.1 hx with rfl | hx
    · exact absurd rfl hne
    · exact h.around.2 x hx

/-- The nodes after an end tag that has closed an element. -/
theorem nodes_close {before after : List (OpenEntry (Nat × Nat))} {e : OpenEntry (Nat × Nat)}
    (h : Follows ps (before ++ e :: after)) {c : Closure Nat}
    (hends : ends? (waiting ps) p = some e.item.2) (hitem : c.item = e.item.1)
    (hoverdue : c.overdue = e.overdue)
    (hskipped : ∀ m, m ∈ c.skipped ↔ ∃ x ∈ before, x.overdue = false ∧ x.item.1 = m) :
    ((Outline.ofPieces ps).close c).nodes.toList =
      (nodePlaces (ps ++ [p])).map (outlinedAt (ps ++ [p])) := by
  have he : e ∈ before ++ e :: after := List.mem_append_right _ (List.mem_cons_self ..)
  have hnumber := h.numbers e he
  refine List.ext_getElem? fun m => ?_
  rw [Outline.getElem?_close, h.nodes, nodePlaces_append_of_ends hends, List.getElem?_map,
    List.getElem?_map, hitem, hoverdue, h.size_nodes]
  cases hm : (nodePlaces ps)[m]? with
  | none => rfl
  | some i =>
    rw [Option.map_some, Option.map_some, Option.map_some]
    congr 1
    by_cases hmitem : m = e.item.1
    · subst hmitem
      obtain rfl : e.item.2 = i := Option.some.inj (hnumber.symm.trans hm)
      rw [if_pos rfl, outlinedAt_ended hends (h.opensAt he).1,
        countP_gt_eq (pairwise_nodePlaces ps) hm]
      simp only [h.overdue e he]
    · have hne : i ≠ e.item.2 := fun heq => hmitem (number_unique hm (heq ▸ hnumber))
      rw [if_neg hmitem]
      by_cases hmem : m ∈ c.skipped
      · obtain ⟨x, hx, hover, rfl⟩ := (hskipped m).1 hmem
        have hx' := List.mem_append_left (e :: after) hx
        obtain rfl : x.item.2 = i := Option.some.inj ((h.numbers x hx').symm.trans hm)
        rw [if_pos hmem, h.outlinedAt_before hx' hends (h.around.1 x hx), hover,
          if_neg Bool.false_ne_true]
      · rw [if_neg hmem]
        by_cases hbefore : ∃ x ∈ before, x.item.2 = i
        · -- it has been overdue already
          obtain ⟨x, hx, rfl⟩ := hbefore
          have hx' := List.mem_append_left (e :: after) hx
          have hover : x.overdue = true := by
            by_contra hnot
            exact hmem ((hskipped m).2
              ⟨x, hx, by simpa using hnot, number_unique (h.numbers x hx') hm⟩)
          rw [h.outlinedAt_before hx' hends (h.around.1 x hx), if_pos hover]
        · rw [h.outlinedAt_behind hends (mem_nodePlaces.1 (List.mem_of_getElem? hm)).1 hne
            fun x hx heq => hbefore ⟨x, hx, heq⟩]

/-- An end tag that closes an element. -/
theorem close {before after : List (OpenEntry (Nat × Nat))} {e : OpenEntry (Nat × Nat)}
    (h : Follows ps (before ++ e :: after)) {name raw : String}
    (hkey : e.key = AsciiCase.lower name) (hbefore : ∀ x ∈ before, x.key ≠ e.key)
    (hends : ends? (waiting ps) (.endTag name raw) = some e.item.2)
    (hwait : wait (waiting ps) ps.length (.endTag name raw) =
      before.map entryTag ++ after.map entryTag) :
    Follows (ps ++ [.endTag name raw]) (before.map OpenEntry.delay ++ after) := by
  obtain ⟨c, hc, hcloses⟩ := h.opened.close?_map_eq_some hbefore hkey
  have hadd : Outline.ofPieces (ps ++ [.endTag name raw]) = (Outline.ofPieces ps).close c := by
    rw [ofPieces_append_singleton, Outline.add_endTag_of_some raw hc]
  -- an entry that is left was there before, with the same place
  have hold : ∀ x ∈ before.map OpenEntry.delay ++ after,
      ∃ y ∈ before ++ e :: after, y.item = x.item := by
    intro x hx
    rcases List.mem_append.1 hx with hx | hx
    · obtain ⟨y, hy, rfl⟩ := List.mem_map.1 hx
      exact ⟨y, List.mem_append_left _ hy, rfl⟩
    · exact ⟨x, List.mem_append_right _ (List.mem_cons_of_mem _ hx), rfl⟩
  refine ⟨?_, ?_, ?_, ?_, ?_⟩
  · rw [hadd, Outline.openElements_close, List.map_append, OpenEntry.map_map_delay]
    exact hcloses.remaining
  · rw [waiting_append_singleton, hwait, List.map_append, List.map_map]
    rfl
  · intro x hx
    obtain ⟨y, hy, hitem⟩ := hold x hx
    rw [nodePlaces_append_of_ends hends, ← hitem]
    exact h.numbers y hy
  · intro x hx
    rw [List.length_append, List.length_singleton, passedOver_append_singleton, hends]
    rcases List.mem_append.1 hx with hx | hx
    · obtain ⟨y, hy, rfl⟩ := List.mem_map.1 hx
      have hlt := (h.opensAt (List.mem_append_left _ hy)).1.lt_length
      exact iff_of_true rfl (.inr ⟨hlt, _, h.around.1 y hy, rfl⟩)
    · have hx' := List.mem_append_right before (List.mem_cons_of_mem e hx)
      rw [h.overdue x hx', or_iff_left]
      rintro ⟨-, i', hi', heq⟩
      cases heq
      exact Nat.lt_asymm hi' (h.around.2 x hx)
  · rw [hadd]
    refine h.nodes_close hends hcloses.item hcloses.overdue fun m => ?_
    rw [hcloses.skipped]
    simp [List.filter_map, OpenEntry.map, and_assoc]

/-- One more piece. -/
theorem step (h : Follows ps es) (hp : p.WellRead) : ∃ es', Follows (ps ++ [p]) es' := by
  cases p with
  | text raw => exact ⟨es, h.leaf hp rfl rfl rfl⟩
  | comment body => exact ⟨es, h.leaf hp rfl rfl rfl⟩
  | conditionalStart e => exact ⟨es, h.leaf hp rfl rfl rfl⟩
  | conditionalEnd raw => exact ⟨es, h.leaf hp rfl rfl rfl⟩
  | startTag e =>
    cases hself : e.selfClosed with
    | true =>
      refine ⟨es, h.leaf hp rfl ?_ ?_⟩
      · rw [wait, if_pos hself]
      · rw [Outline.add, if_pos hself]
        rfl
    | false => exact ⟨_, h.push hp hself⟩
  | endTag name raw =>
    rcases ends?_cases (waiting ps) name raw ps.length with
      ⟨hends, hwait, hkeys⟩ | ⟨before, w, after, hsplit, hkey, hbefore, hends, hwait⟩
    · refine ⟨es, h.leaf hp hends hwait (Outline.add_endTag_of_none raw ?_)⟩
      exact h.opened.close?_map_eq_none fun e he =>
        hkeys (entryTag e) (h.waits ▸ List.mem_map_of_mem he)
    · obtain ⟨before, rest, rfl, rfl, hrest⟩ := List.map_eq_append_iff.1 (h.waits.trans hsplit)
      obtain ⟨e, after, rfl, rfl, rfl⟩ := List.map_eq_cons_iff.1 hrest
      refine ⟨_, h.close hkey (fun x hx => ?_) hends hwait⟩
      rw [show e.key = AsciiCase.lower name from hkey]
      exact hbefore (entryTag x) (List.mem_map_of_mem hx)

end Follows

/-- **The invariant along the pieces.** The induction adds one piece at the end. -/
theorem exists_follows {ps : List Piece} (hps : ∀ p ∈ ps, p.WellRead) : ∃ es, Follows ps es := by
  induction ps using List.reverseRecOn with
  | nil => exact ⟨[], .empty⟩
  | append_singleton ps p ih =>
    obtain ⟨es, h⟩ := ih fun q hq => hps q (List.mem_append_left _ hq)
    exact h.step (hps p (by simp))

/-- The trees of the places of a row of pieces. -/
def places (ps : List Piece) : List (Tree Nat) :=
  Tree.nest (reach ps) (nodePlaces ps)

end Piece

/-- **The tree of a text** is the nesting of its places, each with what becomes of its piece. -/
theorem Markup.parse_eq_places (input : String) :
    Markup.parse input = .node .fragment
      (Tree.mapAll (Piece.contentAt (Piece.ofText input)) (Piece.places (Piece.ofText input))) := by
  have hread : ∀ p ∈ Piece.ofText input, p.WellRead := by
    rw [Piece.ofText_eq_pieces]
    exact Reader.wellRead_pieces _
  obtain ⟨es, h⟩ := Piece.exists_follows hread
  rw [Markup.parse, Piece.ofDocument_eq_ofText, Outline.markup, Outline.forest_eq_trees, h.nodes]
  congr 1
  exact Outline.trees_eq_nest _ _ _ _ fun i b hb =>
    take_countP_between (Piece.pairwise_nodePlaces _) hb

end MarkupFilter
