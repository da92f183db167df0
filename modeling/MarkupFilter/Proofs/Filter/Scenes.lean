import MarkupFilter.Proofs.Filter.EndTags
import MarkupFilter.Proofs.Filter.Guards
import MarkupFilter.Proofs.Filter.Parts
import MarkupFilter.Proofs.Markup.LateEnds

/-!
# Filtering as a row of events

Where the rules do not ask for a place, both ways of filtering write what one event after the other
calls for, the one in the order of the pieces and the other in the order of the tree. What is shown
of any row of events is so shown of both of them.

## Main definitions

* `Scene` — what is known between two events.
* `Filter.act`, `Filter.say` — what an event does, and what is written for it.
* `Filter.after`, `Filter.told` — the same for a row of events.

## Main results

* `Filter.byPiece_eq_told`, `Filter.byTree_eq_told` — both ways of filtering, by their events.
-/

set_option autoImplicit false

namespace MarkupFilter

open Event

/-! ## Scenes -/

/-- What is known between two events. -/
structure Scene where
  guard : ObjectGuard := {}
  /-- What is remembered of the nodes so far, of each that is an element. -/
  nodes : List (Option OpenedElement) := []
  /-- The numbers of the open objects, the innermost first. -/
  objects : List Nat := []

namespace Scene

/-- What is remembered of the node with the given number. -/
def node? (s : Scene) (number : Nat) : Option OpenedElement :=
  s.nodes[number]?.join

/-- The key of the frame that the node with the given number has got. -/
def key? (s : Scene) (number : Nat) : Option Nat :=
  (s.node? number).bind OpenedElement.objectKey?

/-- The scene after the start of an element. -/
def enter (s : Scene) (v : Filter.Verdict) : Scene where
  guard := v.guard
  nodes := s.nodes ++ [some v.opened]
  objects := if v.objectKey?.isSome then s.nodes.length :: s.objects else s.objects

/-- The scene after a node that is no element. -/
def pass (s : Scene) : Scene :=
  { s with nodes := s.nodes ++ [none] }

/-- The scene after the end of an element. -/
def leave (s : Scene) (number : Nat) : Scene :=
  { s with
    guard := (Filter.endObject s.guard (s.key? number) false).2
    objects := s.objects.erase number }

end Scene

namespace Filter

variable {f : Filter}

/-- The scene after an event. -/
def act (f : Filter) (s : Scene) : Event → Scene
  | .node (.element e) => s.enter (f.judge s.guard e none false)
  | .node _ => s.pass
  | .ended number => s.leave number
  | .dropped number => s.leave number

/-- What is written for a node that is no element. -/
def renderOther (f : Filter) : Content → String
  | .text raw => renderText raw
  | .stray _ (.endTag name) => f.renderStrayEndTag name
  | .stray _ .conditional => f.renderConditionalEnd
  | .comment body => f.renderComment body
  | _ => ""

/-- What is written for the start of an element. -/
def sayStart (f : Filter) (v : Verdict) : String :=
  f.renderStartTag v.element v.decision

/-- What is written for the end of an element in its place. -/
def sayEnd (f : Filter) (g : ObjectGuard) (x : OpenedElement) : String :=
  f.renderEndTag x.name x.decision (endObject g x.objectKey? true).1

/-- What is written for an event. -/
def say (f : Filter) (s : Scene) : Event → String
  | .node (.element e) => f.sayStart (f.judge s.guard e none false)
  | .node c => f.renderOther c
  | .ended number => ((s.node? number).map (f.sayEnd s.guard)).getD ""
  | .dropped _ => ""

/-- A node that is no element. -/
theorem act_other (s : Scene) {c : Content} (hc : ∀ e, c ≠ .element e) :
    f.act s (.node c) = s.pass ∧ f.say s (.node c) = f.renderOther c := by
  cases c with
  | element e => exact absurd rfl (hc e)
  | _ => exact ⟨rfl, rfl⟩

/-- The scene after a row of events. -/
def after (f : Filter) (s : Scene) (xs : List Event) : Scene :=
  xs.foldl f.act s

/-- What is written for a row of events. -/
def told (f : Filter) : Scene → List Event → String
  | _, [] => ""
  | s, x :: xs => f.say s x ++ told f (f.act s x) xs

@[simp] theorem after_nil (s : Scene) : f.after s [] = s := rfl

@[simp] theorem after_cons (s : Scene) (x : Event) (xs : List Event) :
    f.after s (x :: xs) = f.after (f.act s x) xs := rfl

theorem after_append (s : Scene) (xs ys : List Event) :
    f.after s (xs ++ ys) = f.after (f.after s xs) ys :=
  List.foldl_append

@[simp] theorem told_nil (s : Scene) : f.told s [] = "" := rfl

@[simp] theorem told_cons (s : Scene) (x : Event) (xs : List Event) :
    f.told s (x :: xs) = f.say s x ++ f.told (f.act s x) xs := rfl

theorem told_append (s : Scene) (xs ys : List Event) :
    f.told s (xs ++ ys) = f.told s xs ++ f.told (f.after s xs) ys := by
  induction xs generalizing s with
  | nil => rw [List.nil_append, told_nil, String.empty_append, after_nil]
  | cons x xs ih =>
    rw [List.cons_append, told_cons, told_cons, ih, String.append_assoc, after_cons]

/-! ### Nodes -/

/-- Events add nodes at the end. -/
theorem exists_nodes_after (s : Scene) (xs : List Event) :
    ∃ new, (f.after s xs).nodes = s.nodes ++ new ∧ new.length = (contents xs).length := by
  induction xs generalizing s with
  | nil => exact ⟨[], (List.append_nil _).symm, rfl⟩
  | cons x xs ih =>
    obtain ⟨new, hnodes, hlength⟩ := ih (f.act s x)
    rw [after_cons, hnodes]
    cases x with
    | node c =>
      obtain ⟨y, hy⟩ : ∃ y, (f.act s (.node c)).nodes = s.nodes ++ [y] := by
        cases c <;> exact ⟨_, rfl⟩
      exact ⟨y :: new, by rw [hy, List.append_assoc]; rfl, by simp [hlength]⟩
    | ended n => exact ⟨new, rfl, hlength⟩
    | dropped n => exact ⟨new, rfl, hlength⟩

/-- What is remembered of a node stays. -/
theorem node?_after (s : Scene) (xs : List Event) {number : Nat} (h : number < s.nodes.length) :
    (f.after s xs).node? number = s.node? number := by
  obtain ⟨new, hnodes, -⟩ := exists_nodes_after (f := f) s xs
  rw [Scene.node?, Scene.node?, hnodes, List.getElem?_append_left h]

/-- What is remembered of the element that was started last. -/
theorem node?_enter (s : Scene) (v : Verdict) :
    (s.enter v).node? s.nodes.length = some v.opened := by
  rw [Scene.node?, Scene.enter, List.getElem?_concat_length]
  rfl

/-! ## The order of the pieces -/

/-- Local listeners keep the tags of elements. -/
theorem keepsTag_of_local (hf : f.policy.HasLocalListeners) (e : Element) :
    f.policy.KeepsTag e := by
  intro rule hrule _
  obtain ⟨h, hh⟩ := ElementListener.applyAll_eq (hf _ rule hrule)
  rw [hh]
  exact ⟨rfl, rfl⟩

/-- The events of the pieces say what is written for the pieces, and remember what the filter
remembers. -/
structure TellsPieces (f : Filter) (ps : List Piece) : Prop where
  guard : (f.after {} (Piece.events ps)).guard = (f.stateAfter {} ps).guard
  size : (f.after {} (Piece.events ps)).nodes.length = (Outline.ofPieces ps).nodes.size
  told : f.told {} (Piece.events ps) = f.outputFrom {} ps
  opened : ∀ number x, f.Opens ps number x →
    (f.after {} (Piece.events ps)).node? number = some x

namespace TellsPieces

variable {ps : List Piece}

/-- One more piece, if its event does in the scene what the piece does to the filter. -/
theorem append (h : f.TellsPieces ps) {p : Piece} {x : Event}
    (hevent : (Outline.ofPieces ps).event p = x)
    (hguard : (f.act (f.after {} (Piece.events ps)) x).guard =
      (f.step (f.stateAfter {} ps) p).2.guard)
    (hsize : (f.act (f.after {} (Piece.events ps)) x).nodes.length =
      ((Outline.ofPieces ps).add p).nodes.size)
    (hsay : f.say (f.after {} (Piece.events ps)) x = (f.step (f.stateAfter {} ps) p).1)
    (hnew : ∀ e, p = .startTag e → (f.act (f.after {} (Piece.events ps)) x).node?
      (Outline.ofPieces ps).nodes.size = some (f.verdictAfter ps e).opened) :
    f.TellsPieces (ps ++ [p]) := by
  have hevents : Piece.events (ps ++ [p]) = Piece.events ps ++ [x] := by
    rw [Piece.events_append_singleton, hevent]
  refine ⟨?_, ?_, ?_, fun number y hopens => ?_⟩
  · rw [hevents, after_append, Aligned.stateAfter_singleton]
    exact hguard
  · rw [hevents, after_append, Piece.ofPieces_append_singleton]
    exact hsize
  · rw [hevents, told_append, outputFrom_append, h.told, outputFrom_cons, outputFrom_nil,
      ← hsay]
    rfl
  · obtain ⟨before, e, after, hsplit, hnumber, hy⟩ := hopens
    rw [hevents, after_append]
    rcases List.eq_nil_or_concat after with rfl | ⟨after', q, rfl⟩
    · obtain ⟨rfl, hp⟩ := List.append_inj' hsplit rfl
      rw [← hnumber, hy]
      exact hnew e (List.singleton_inj.1 hp)
    · rw [List.concat_eq_append, ← List.cons_append, ← List.append_assoc] at hsplit
      obtain ⟨hps, -⟩ := List.append_inj' hsplit rfl
      have hold := h.opened number y ⟨before, e, after', hps, hnumber, hy⟩
      have hlt : number < (f.after {} (Piece.events ps)).nodes.length := by
        by_contra hge
        rw [Scene.node?, List.getElem?_eq_none (Nat.le_of_not_lt hge)] at hold
        cases hold
      rw [node?_after _ _ hlt, hold]

/-- One more node that is no element. -/
theorem append_other (h : f.TellsPieces ps) {p : Piece} {c : Content}
    (hevent : (Outline.ofPieces ps).event p = .node c) (hc : ∀ e, c ≠ .element e)
    (hadd : (Outline.ofPieces ps).add p = (Outline.ofPieces ps).append c)
    (hstep : f.step (f.stateAfter {} ps) p = (f.renderOther c, f.stateAfter {} ps))
    (hstart : ∀ e, p ≠ .startTag e) : f.TellsPieces (ps ++ [p]) := by
  obtain ⟨hact, hsay⟩ := act_other (f := f) (f.after {} (Piece.events ps)) hc
  refine h.append hevent ?_ ?_ ?_ fun e he => absurd he (hstart e)
  · rw [hact, hstep]
    exact h.guard
  · rw [hact, hadd, Scene.pass, List.length_append, h.size]
    exact (Array.size_push _).symm
  · rw [hsay, hstep]

/-- One more element. -/
theorem append_element (h : f.TellsPieces ps) {p : Piece} {e : Element}
    (hevent : (Outline.ofPieces ps).event p = .node (.element e))
    (hadd : ((Outline.ofPieces ps).add p).nodes = ((Outline.ofPieces ps).append (.element e)).nodes)
    (hguard : (f.step (f.stateAfter {} ps) p).2.guard =
      (f.judge (f.stateAfter {} ps).guard e none false).guard)
    (hsay : (f.step (f.stateAfter {} ps) p).1 =
      f.sayStart (f.judge (f.stateAfter {} ps).guard e none false))
    (hnew : ∀ e', p = .startTag e' → f.verdictAfter ps e' =
      f.judge (f.stateAfter {} ps).guard e none false) : f.TellsPieces (ps ++ [p]) := by
  refine h.append hevent ?_ ?_ ?_ fun e' he' => ?_
  · rw [hguard, ← h.guard]
    rfl
  · rw [hadd, act, Scene.enter, List.length_append, h.size]
    exact (Array.size_push _).symm
  · rw [hsay, ← h.guard]
    rfl
  · rw [← h.size, hnew e' he', ← h.guard]
    exact node?_enter _ _

/-- One more end tag that closes an element. -/
theorem append_end (h : f.TellsPieces ps) {name raw : String}
    {inner outer : List (OpenEntry (Nat × OpenedElement))} {y : OpenEntry (Nat × OpenedElement)}
    {c : Closure Nat} {c' : Closure OpenedElement} (haligned : f.Aligned ps (inner ++ y :: outer))
    (htree : (Outline.ofPieces ps).openElements.close? name = some c)
    (hfilter : (f.stateAfter {} ps).openElements.close? name = some c')
    (hitem : c.item = y.item.1) (hitem' : c'.item = y.item.2) (hover : c.overdue = y.overdue)
    (hover' : c'.overdue = y.overdue) : f.TellsPieces (ps ++ [.endTag name raw]) := by
  have hopened : (f.after {} (Piece.events ps)).node? y.item.1 = some y.item.2 :=
    h.opened _ _ (haligned.opens y (List.mem_append_right _ (List.mem_cons_self ..)))
  have hevent : (Outline.ofPieces ps).event (.endTag name raw) =
      if y.overdue then .dropped y.item.1 else .ended y.item.1 := by
    rw [Outline.event, htree]
    dsimp only
    rw [hover, hitem]
  have hact : ∀ s, f.act s (if y.overdue then .dropped y.item.1 else .ended y.item.1) =
      s.leave y.item.1 := by
    intro s
    cases y.overdue <;> rfl
  have hstep : f.step (f.stateAfter {} ps) (.endTag name raw) =
      (if y.overdue then "" else f.sayEnd (f.stateAfter {} ps).guard y.item.2,
        ⟨c'.remaining,
          (endObject (f.stateAfter {} ps).guard y.item.2.objectKey? (!y.overdue)).2⟩) := by
    rw [step, stepEndTag, hfilter]
    dsimp only
    rw [hitem', hover']
    cases y.overdue <;> rfl
  refine h.append hevent ?_ ?_ ?_ fun e he => by cases he
  · rw [hact, hstep, Scene.leave, Scene.key?, hopened, Option.bind_some, h.guard]
    dsimp only
    rw [endObject_guard, endObject_guard]
  · rw [hact, Scene.leave, Outline.add_endTag_of_some raw htree, h.size, Outline.close,
      Outline.finish, Array.size_modify]
    have hsize : ∀ (numbers : List Nat) (o : Outline),
        (numbers.foldl Outline.delay o).nodes.size = o.nodes.size := by
      intro numbers
      induction numbers with
      | nil => exact fun o => rfl
      | cons n numbers ih => exact fun o => (ih _).trans Array.size_modify
    exact (hsize c.skipped ⟨(Outline.ofPieces ps).nodes, c.remaining⟩).symm
  · rw [hstep]
    cases y.overdue with
    | true => rfl
    | false =>
      show ((Scene.node? _ _).map _).getD "" = _
      rw [hopened, h.guard]
      rfl

/-- One more piece. -/
theorem step (hp : f.policy.IgnoresPlace) (hf : f.policy.HasLocalListeners)
    (h : f.TellsPieces ps) {p : Piece} (hread : p.WellRead) : f.TellsPieces (ps ++ [p]) := by
  cases p with
  | text raw => exact h.append_other rfl (by simp) rfl rfl (by simp)
  | comment body => exact h.append_other rfl (by simp) rfl rfl (by simp)
  | conditionalEnd raw => exact h.append_other rfl (by simp) rfl rfl (by simp)
  | conditionalStart e =>
    obtain ⟨name, condition, rfl, hname, -⟩ := hread
    have hjudge := judge_conditional hf (f.stateAfter {} ps).guard
      (e := { name := name, condition := some condition }) rfl hname none false
    refine h.append_element rfl rfl ?_ ?_ fun e' he' => by cases he'
    · rw [hjudge]
      rfl
    · rw [hjudge]
      rfl
  | startTag e =>
    refine h.append_element rfl rfl ?_ ?_ fun e' he' => ?_
    · simp only [Filter.step, stepStartTag, judge_place hp]
    · simp only [Filter.step, stepStartTag, judge_place hp, sayStart]
    · cases he'
      exact judge_place hp _ _ _ _
  | endTag name raw =>
    obtain ⟨es, haligned⟩ := exists_aligned (f := f) fun e _ => keepsTag_of_local hf e
    cases haligned.sameVerdict name with
    | stray haligned htree hfilter =>
      refine h.append_other ?_ (by simp) (Outline.add_endTag_of_none raw htree) ?_ (by simp)
      · rw [Outline.event, htree]
      · rw [Filter.step, stepEndTag, hfilter]
        rfl
    | closes haligned htree hfilter hcloses hcloses' =>
      exact h.append_end haligned htree hfilter hcloses.item hcloses'.item hcloses.overdue
        hcloses'.overdue

end TellsPieces

/-- Along the pieces, the events tell what is written for them. -/
theorem tellsPieces (hp : f.policy.IgnoresPlace) (hf : f.policy.HasLocalListeners)
    {ps : List Piece} (hps : ∀ p ∈ ps, p.WellRead) : f.TellsPieces ps := by
  induction ps using List.reverseRecOn with
  | nil =>
    refine ⟨rfl, rfl, rfl, fun number x h => ?_⟩
    obtain ⟨before, e, after, hsplit, -⟩ := h
    cases before <;> cases hsplit
  | append_singleton ps p ih =>
    exact (ih fun q hq => hps q (List.mem_append_left _ hq)).step hp hf (hps p (by simp))

/-! ## The order of the tree -/

/-- The end of an element in a walk and in a scene. -/
theorem closeElement_told {v : Verdict} {s : Scene} {number : Nat}
    (hnode : s.node? number = some v.opened) (p : Progress) (hguard : p.guard = s.guard) {e : Element}
    (he : e.ending = v.element.ending) :
    f.closeElement v p = ⟨(f.after s (Outline.endEvents number (.element e))).guard,
      p.text ++ f.told s (Outline.endEvents number (.element e))⟩ := by
  have hkey : s.key? number = v.objectKey? := by
    rw [Scene.key?, hnode]
    rfl
  have hleave : ∀ inPlace, (endObject p.guard v.objectKey? inPlace).2 = (s.leave number).guard := by
    intro inPlace
    rw [Scene.leave, hkey, hguard, endObject_guard, endObject_guard]
  cases hending : e.ending with
  | closed =>
    have hevents : Outline.endEvents number (.element e) = [.ended number] := by
      rw [Outline.endEvents, hending]
    rw [closeElement_closed f v p (he.symm.trans hending), hevents, told_cons, told_nil,
      String.append_empty, endProgress, Progress.write]
    dsimp only
    refine congr (congrArg _ (hleave true)) ?_
    rw [say, hnode, hguard]
    rfl
  | crossClosed =>
    have hevents : Outline.endEvents number (.element e) = [.dropped number] := by
      rw [Outline.endEvents, hending]
    have hclose : f.closeElement v p =
        { p with guard := (endObject p.guard v.objectKey? false).2 } := by
      unfold closeElement
      rw [he.symm.trans hending]
      cases v.objectKey? <;> rfl
    rw [hclose, hleave, hevents, told_cons, told_nil, String.append_empty]
    exact congrArg _ (String.append_empty).symm
  | missing =>
    have hevents : Outline.endEvents number (.element e) = [] := by
      rw [Outline.endEvents, hending]
    have hclose : f.closeElement v p = p := by
      unfold closeElement
      rw [he.symm.trans hending]
    rw [hclose, hevents, told_nil, String.append_empty, after_nil, ← hguard]
  | overdue =>
    have hevents : Outline.endEvents number (.element e) = [] := by
      rw [Outline.endEvents, hending]
    have hclose : f.closeElement v p = p := by
      unfold closeElement
      rw [he.symm.trans hending]
    rw [hclose, hevents, told_nil, String.append_empty, after_nil, ← hguard]

/-- What is written for a node that is no element, in a walk. -/
theorem visit_renderOther (p : Progress) {c : Content} (hc : ∀ e, c ≠ .element e) :
    f.visit none p c [] = p.write (f.renderOther c) := by
  match c, hc with
  | .fragment, _ =>
    rw [visit, node]
    exact congrArg (Progress.mk p.guard) (String.append_empty).symm
  | .text raw, _ => rw [visit, node]; rfl
  | .stray raw (.endTag name), _ => rw [visit, node]; rfl
  | .stray raw .conditional, _ => rw [visit, node]; rfl
  | .comment body, _ => rw [visit, node]; rfl
  | .element e, hc => exact absurd rfl (hc e)

/-- A node is visited as its events tell, if walks through what is inside it are. -/
theorem visit_told (hp : f.policy.IgnoresPlace) (hf : f.policy.HasLocalListeners)
    (parent? : Option String) (p : Progress) {s : Scene} (hguard : p.guard = s.guard) {c : Content}
    {inside : List Outlined} (hleaf : (¬ ∃ e, c = .element e) → inside = [])
    (hin : ∀ (parent? : Option String) (p : Progress) {s : Scene}, p.guard = s.guard →
      f.walk parent? p inside = ⟨(f.after s (Outline.treeEvents s.nodes.length inside)).guard,
        p.text ++ f.told s (Outline.treeEvents s.nodes.length inside)⟩) :
    f.visit parent? p c inside =
      ⟨(f.after s (Outline.nodeEvents s.nodes.length c inside)).guard,
        p.text ++ f.told s (Outline.nodeEvents s.nodes.length c inside)⟩ := by
  by_cases hcontent : ∃ e, c = .element e
  · obtain ⟨e, rfl⟩ := hcontent
    obtain ⟨started, hstarted⟩ : ∃ x : Element, x = { e with ending := .missing } := ⟨_, rfl⟩
    have hverdict : f.judge p.guard e parent? e.isNeverClosed =
        (f.judge s.guard started none false).withEnding e.ending := by
      rw [judge_place hp, ← judge_withEnding hf, hstarted, hguard]
      rfl
    have htag := sameTag_judge hf p.guard e parent? e.isNeverClosed
    obtain ⟨v, hv⟩ : ∃ v, v = f.judge s.guard started none false := ⟨_, rfl⟩
    have hlength : (s.enter v).nodes.length = s.nodes.length + 1 := by
      rw [Scene.enter, List.length_append, List.length_singleton]
    have hnode : (f.after (s.enter v)
        (Outline.treeEvents (s.nodes.length + 1) inside)).node? s.nodes.length = some v.opened := by
      rw [node?_after _ _ (by omega), node?_enter]
    have hwalk := hin (some v.element.name)
      (f.startProgress p (v.withEnding e.ending)) (s := s.enter v) rfl
    rw [hlength] at hwalk
    rw [hverdict, ← hv] at htag
    have hname : (v.withEnding e.ending).element.name = v.element.name := rfl
    have hbegun : (Content.element e).begun = .element started := by
      rw [hstarted]
      rfl
    have hact : f.act s (.node (.element started)) = s.enter v := by
      rw [hv]
      rfl
    have hsay : f.say s (.node (.element started)) =
        f.sayStart (v.withEnding e.ending) := by
      rw [hv]
      rfl
    rw [visit_element, hverdict, ← hv]
    dsimp only
    rw [closeElement_told (v := v.withEnding e.ending) hnode _ (by rw [hname, hwalk])
      htag.ending.symm, hname, hwalk, Outline.nodeEvents, hbegun, after_cons, told_cons, hact, hsay,
      after_append, told_append, ← String.append_assoc, ← String.append_assoc]
    rfl
  · have hother : ∀ e, c ≠ .element e := fun e he => hcontent ⟨e, he⟩
    obtain ⟨hact, hsay⟩ := act_other (f := f) s hother
    have hbegun : c.begun = c ∧ Outline.endEvents s.nodes.length c = [] := by
      cases c with
      | element e => exact absurd rfl (hother e)
      | _ => exact ⟨rfl, rfl⟩
    rw [f.visit_other parent? p hother, visit_renderOther p hother, hleaf hcontent,
      Outline.nodeEvents, hbegun.1, hbegun.2, Outline.treeEvents_nil, List.append_nil, after_cons,
      told_cons, hact, hsay, after_nil, told_nil, String.append_empty, Progress.write, hguard]
    rfl

/-- **A walk through nodes tells their events.** The induction is on the number of nodes. -/
theorem walk_told (hp : f.policy.IgnoresPlace) (hf : f.policy.HasLocalListeners)
    (parent? : Option String) (p : Progress) {s : Scene} (hguard : p.guard = s.guard)
    {nodes : List Outlined} (hnodes : Outline.OnlyElementsContain nodes) :
    f.walk parent? p nodes = ⟨(f.after s (Outline.treeEvents s.nodes.length nodes)).guard,
      p.text ++ f.told s (Outline.treeEvents s.nodes.length nodes)⟩ := by
  induction hn : nodes.length using Nat.strongRecOn generalizing nodes parent? p s with
  | _ n ih =>
    cases nodes with
    | nil =>
      rw [walk_nil, Outline.treeEvents_nil, after_nil, told_nil, String.append_empty, ← hguard]
    | cons o os =>
      have hos : Outline.OnlyElementsContain os := fun x hx => hnodes x (List.mem_cons_of_mem _ hx)
      have hleaf : (¬ ∃ e, o.content = .element e) → os.take o.extent = [] := by
        intro hcontent
        have hzero : o.extent = 0 := by
          by_contra hextent
          exact hcontent (hnodes o (List.mem_cons_self ..) hextent)
        rw [hzero, List.take_zero]
      have hvisit := visit_told hp hf parent? p hguard hleaf fun parent? p s hguard =>
        ih _ (Outline.length_parts hn).1 parent? p hguard
          (fun x hx => hos x (List.mem_of_mem_take hx)) rfl
      have hlength : (f.after s (Outline.nodeEvents s.nodes.length o.content
          (os.take o.extent))).nodes.length = s.nodes.length + 1 + (os.take o.extent).length := by
        obtain ⟨new, hafter, hnew⟩ := exists_nodes_after (f := f) s
          (Outline.nodeEvents s.nodes.length o.content (os.take o.extent))
        rw [hafter, List.length_append, hnew, Outline.nodeEvents, contents_node, contents_append,
          Outline.contents_treeEvents, Outline.contents_endEvents, List.append_nil,
          List.length_cons, List.length_map]
        omega
      have hrest := ih _ (Outline.length_parts hn).2 parent?
        (f.visit parent? p o.content (os.take o.extent)) (by rw [hvisit])
        (fun x hx => hos x (List.mem_of_mem_drop hx)) rfl
      rw [walk_cons, hrest, hlength, hvisit, Outline.treeEvents_eq, after_append, told_append,
        String.append_assoc]

/-! ## Both ways of filtering -/

/-- The events of a text in the order of its pieces. -/
def pieceEvents (input : String) : List Event :=
  Piece.events (Piece.ofText input)

/-- The events of a text in the order of its tree. -/
def treeEvents (input : String) : List Event :=
  Outline.treeEvents 0 (Outline.ofPieces (Piece.ofText input)).nodes.toList

theorem wellRead_ofText (input : String) : ∀ p ∈ Piece.ofText input, p.WellRead := by
  rw [Piece.ofText_eq_pieces]
  exact Reader.wellRead_pieces _

/-- **Filtering piece by piece** tells the events of the pieces. -/
theorem byPiece_eq_told (hp : f.policy.IgnoresPlace) (hf : f.policy.HasLocalListeners)
    (input : String) : f.byPiece input = f.told {} (pieceEvents input) :=
  (tellsPieces hp hf (wellRead_ofText input)).told.symm

/-- **Filtering a tree** tells the events of the tree. -/
theorem byTree_eq_told (hp : f.policy.IgnoresPlace) (hf : f.policy.HasLocalListeners)
    (input : String) : f.byTree input = f.told {} (treeEvents input) := by
  rw [byTree_eq_walk f hf, Piece.ofDocument_eq_ofText,
    walk_told hp hf none {} (s := {}) rfl (Piece.onlyElementsContain (wellRead_ofText input))]
  exact String.empty_append

/-! ### The events of a text -/

/-- In the order of the tree, late ends come sooner. -/
theorem ahead_treeEvents (input : String) : Ahead (treeEvents input) (pieceEvents input) :=
  Piece.ahead_treeEvents (wellRead_ofText input)

end Filter

/-- The ends of the events are in order, and the nodes among them are as they were read. -/
structure Event.WellRead (xs : List Event) : Prop extends Orderly xs where
  content : ∀ c ∈ contents xs, c.WellRead

namespace Filter

theorem wellRead_treeEvents (input : String) : Event.WellRead (treeEvents input) := by
  refine ⟨Piece.orderly_treeEvents (wellRead_ofText input), fun c hc => ?_⟩
  rw [treeEvents, Outline.contents_treeEvents] at hc
  obtain ⟨o, ho, rfl⟩ := List.mem_map.1 hc
  have hread := (Outline.wellRead_ofPieces (wellRead_ofText input)).content o
    (Array.mem_toList_iff.1 ho)
  revert hread
  cases o.content with
  | element e =>
    rintro (⟨hc, he⟩ | ⟨condition, hc, hname, -, hcondition⟩)
    · exact .inl ⟨hc, he.name, he.attributes, he.keys⟩
    · exact .inr ⟨condition, hc, hname, rfl, hcondition⟩
  | _ => exact id

theorem wellRead_pieceEvents (input : String) : Event.WellRead (pieceEvents input) := by
  refine ⟨Piece.orderly_events (wellRead_ofText input), ?_⟩
  rw [← contents_timely, ← (ahead_treeEvents input).timely_eq, contents_timely]
  exact (wellRead_treeEvents input).content

end Filter

end MarkupFilter
