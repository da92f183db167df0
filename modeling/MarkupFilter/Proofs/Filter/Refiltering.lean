import MarkupFilter.Proofs.Filter.Crossing
import MarkupFilter.Proofs.Filter.Interleaving
import MarkupFilter.Proofs.Filter.Passing

/-!
# Filtering twice

A text in which nothing is neutralized is the same when it is filtered again, as long as each of its
end tags finds the same element again. What may come between are elements that stay open in the
filtered text: those of which the end tag was left out because it came too late, and the parameters
that are added to objects.

## Main definitions

* `Filter.PassesFrom`, `Filter.ReadsBackFrom` — what must hold along the pieces of a text.
* `Filter.GivesAgain` — what the parameters that were added do in the second run.
* `Filter.Retraces` — how the states of the two runs go together.

## Main results

* `Filter.Retraces.step`, `Filter.Retraces.run` — the second run writes what the first one wrote.
* `Filter.refiltered` — filtering again does not change a filtered text.
* `Filter.baseline_not_refiltered` — not so if an end tag finds another element.
-/

set_option autoImplicit false

namespace MarkupFilter

open Reader
open OpenElements (Represents)
open OpenElements.Represents (Closes)

namespace Filter

/-! ## Texts that pass -/

/-- Nothing about the pieces that follow a state is neutralized. -/
inductive PassesFrom (f : Filter) : PieceState → List Piece → Prop where
  | nil (st : PieceState) : PassesFrom f st []
  | cons {st : PieceState} {p : Piece} {ps : List Piece} (hpasses : f.Passes st p)
    (h : PassesFrom f (f.step st p).2 ps) : PassesFrom f st (p :: ps)

instance PassesFrom.decidable (f : Filter) :
    (st : PieceState) → (ps : List Piece) → Decidable (f.PassesFrom st ps)
  | st, [] => isTrue (.nil st)
  | st, p :: ps =>
    have := PassesFrom.decidable f (f.step st p).2 ps
    decidable_of_iff (f.Passes st p ∧ f.PassesFrom (f.step st p).2 ps)
      ⟨fun h => .cons h.1 h.2, fun | .cons hpasses h => ⟨hpasses, h⟩⟩

/-- What is written for the pieces that follow a state is read again as it was, and its end tags
find their elements again, where some others were left open before. -/
inductive ReadsBackFrom (f : Filter) : PieceState → List LeftOpen → List Piece → Prop where
  | nil (st : PieceState) (left : List LeftOpen) : ReadsBackFrom f st left []
  | cons {st : PieceState} {left : List LeftOpen} {p : Piece} {ps : List Piece}
    (hread : f.ReadsBack st p) (hfinds : FindsAgain st left p)
    (h : ReadsBackFrom f (f.step st p).2 (leavesOpen st p ++ left) ps) :
    ReadsBackFrom f st left (p :: ps)

instance ReadsBackFrom.decidable (f : Filter) : (st : PieceState) → (left : List LeftOpen) →
    (ps : List Piece) → Decidable (f.ReadsBackFrom st left ps)
  | st, left, [] => isTrue (.nil st left)
  | st, left, p :: ps =>
    have := ReadsBackFrom.decidable f (f.step st p).2 (leavesOpen st p ++ left) ps
    decidable_of_iff (f.ReadsBack st p ∧ FindsAgain st left p ∧
        f.ReadsBackFrom (f.step st p).2 (leavesOpen st p ++ left) ps)
      ⟨fun h => .cons h.1 h.2.1 h.2.2, fun | .cons hread hfinds h => ⟨hread, hfinds, h⟩⟩

/-- The pieces that are written for those that follow a state. -/
def writtenFrom (f : Filter) : PieceState → List Piece → List Piece
  | _, [] => []
  | st, p :: ps => f.written st p ++ f.writtenFrom (f.step st p).2 ps

variable {f : Filter}

/-! ## The second run -/

/-- **A settled start tag is written again as it is.** -/
theorem step_settled (hf : f.Plain) {st : PieceState} (hi : st.guard.Internal) {x : Element}
    (hx : f.Settled x) (hwritten : x.asWritten = x)
    (henabled : ∀ a ∈ x.attributes.toList, a.enabled = true) :
    ∃ key? h, (f.step st (.startTag x)).1.toList = x.write ∧
      (f.step st (.startTag x)).2 = ⟨if x.selfClosed then st.openElements
        else st.openElements.push x.name ⟨x.name, .allowed, key?⟩, h⟩ ∧
      Guards f st.guard x key? h ∧ h.Internal := by
  obtain ⟨hd, helement⟩ :=
    hx.judge st.guard (st.openElements.current?.map OpenedElement.name) false hi
  have hguards := guards_judge hd
  have hinternal := (judge_alike hf.place hf.network (.refl st.guard) hi x
    (st.openElements.current?.map OpenedElement.name) none false false).2
  rw [helement] at hguards
  refine ⟨_, _, ?_, ?_, hguards, hinternal⟩
  · rw [step, stepStartTag]
    dsimp only
    rw [hd, helement, renderStartTag_of_enabled hx.condition henabled, toList_renderLiveStartTag,
      hwritten]
  · rw [step, stepStartTag]
    dsimp only
    rw [hd, helement]

/-- The second run from the state `st` over pieces that give all the `settings`: they are written as
they are, and stay open inside of `es`. -/
structure GivesAgain (f : Filter) (st : PieceState) (es : List (OpenEntry OpenedElement))
    (settings : List SafetySetting) (ps : List Piece) : Prop where
  text : (f.outputFrom st ps).toList = ps.flatMap Piece.write
  represents : ∃ more, (f.stateAfter st ps).openElements.Represents (more ++ es) ∧
    ∀ y ∈ more, settings ≠ [] ∧ "param" = y.key
  internal : (f.stateAfter st ps).guard.Internal
  nextKey : (f.stateAfter st ps).guard.nextKey = st.guard.nextKey
  given : ∀ s, (f.stateAfter st ps).guard.given.lookup s =
    if s ∈ settings then some st.guard.nextKey else st.guard.given.lookup s

/-- The pieces that are written before an end tag to give the settings. -/
def settingPieces (settings : List SafetySetting) : List Piece :=
  (settings.map fun s => (s.name, s.value .internal)).map paramPiece

/-- **Parameters that were added are written again as they are.** They stay open, and give their
settings to the object. The induction is on the settings. -/
theorem givesAgain_settingPieces (hf : f.Steady) (settings : List SafetySetting)
    (hprotect : settings ≠ [] → f.settings.protectObjects = true) {st : PieceState}
    (hi : st.guard.Internal) {es : List (OpenEntry OpenedElement)}
    (hes : st.openElements.Represents es) :
    f.GivesAgain st es settings (settingPieces settings) := by
  induction settings generalizing st es with
  | nil =>
    exact ⟨rfl, ⟨[], hes, fun y hy => absurd hy List.not_mem_nil⟩, hi, rfl, fun s => rfl⟩
  | cons s settings ih =>
    have hprotected : f.settings.protectObjects = true := hprotect (List.cons_ne_nil _ _)
    have henabled : ∀ a ∈ (s.param .internal).attributes.toList, a.enabled = true :=
      fun a ha => ((s.wellWritten_param .internal).attributes a ha).enabled
    obtain ⟨key?, g, hout, hstate, hguards, hinternal⟩ :=
      step_settled hf.toPlain hi (hf.params s) (s.asWritten_param _) henabled
    have hframe : f.opensFrame (s.param .internal) = false := by
      have hobject : (s.param .internal).isNamed "object" = false := by
        show AsciiCase.same "param" "object" = false
        decide
      rw [opensFrame, hobject, Bool.false_and, Bool.and_false]
    have hsetting : f.settingGiven? (s.param .internal) = some s := by
      rw [settingGiven?, hprotected]
      cases s <;> decide
    have hnext : g.nextKey = st.guard.nextKey := by
      rw [hguards.nextKey, hframe]
      rfl
    have hafter : f.GivesAgain (f.step st (.startTag (s.param .internal))).2
        (⟨st.openElements.nextNumber, "param", false, ⟨"param", .allowed, key?⟩⟩ :: es) settings
        (settingPieces settings) := by
      rw [hstate]
      exact ih (fun _ => hprotected) hinternal (hes.push "param" _)
    obtain ⟨htext, ⟨more, hmore, hkeys⟩, hinternal', hnext', hgiven⟩ := hafter
    have hguard : (f.step st (.startTag (s.param .internal))).2.guard = g := by rw [hstate]
    rw [hguard] at hnext' hgiven
    refine ⟨?_, ⟨more ++ [_], by rw [List.append_assoc]; exact hmore, fun y hy => ?_⟩, hinternal',
      hnext'.trans hnext, fun t => (hgiven t).trans ?_⟩
    · rw [settingPieces, List.map_cons, List.map_cons, outputFrom_cons, String.toList_append,
        List.flatMap_cons]
      exact congrArg₂ (· ++ ·) hout htext
    · rcases List.mem_append.1 hy with hy | hy
      · exact ⟨List.cons_ne_nil _ _, (hkeys y hy).2⟩
      · rw [List.mem_singleton.1 hy]
        exact ⟨List.cons_ne_nil _ _, rfl⟩
    · rw [hnext, hguards.lookup, hsetting]
      by_cases ht : t ∈ settings
      · rw [if_pos ht, if_pos (List.mem_cons_of_mem _ ht)]
      · rw [if_neg ht]
        by_cases hs : s = t
        · rw [if_pos (congrArg some hs), if_pos (hs ▸ List.mem_cons_self ..)]
        · rw [if_neg fun heq => hs (Option.some.inj heq),
            if_neg fun hmem => (List.mem_cons.1 hmem).elim (fun heq => hs heq.symm) ht]

namespace GivesAgain

variable {st : PieceState} {es : List (OpenEntry OpenedElement)} {settings : List SafetySetting}
  {ps : List Piece}

/-- The guard of the second run has still seen everything that the other has. -/
theorem covers (h : f.GivesAgain st es settings ps) {g : ObjectGuard} (hg : g.Covers st.guard) :
    g.Covers (f.stateAfter st ps).guard := by
  refine ⟨h.nextKey.trans hg.nextKey, hg.before, fun s n hn => ?_⟩
  rw [h.given]
  split
  · exact ⟨_, rfl, hg.nextKey ▸ hg.before s n hn⟩
  · exact hg.given s n hn

/-- An object that was opened before has been given every setting, if the first run had given it the
others. -/
theorem gives (h : f.GivesAgain st es settings ps) {g : ObjectGuard} (hg : g.Covers st.guard)
    {key : Nat} (hkey : key < g.nextKey) (hothers : ∀ s, s ∉ settings → g.gives key s = true)
    (s : SafetySetting) : (f.stateAfter st ps).guard.gives key s = true := by
  rw [ObjectGuard.gives, h.given]
  split
  · rw [Option.any_some, hg.nextKey]
    exact decide_eq_true hkey
  · next hs => exact hg.gives (hothers s hs)

end GivesAgain

/-- The decision on a conditional comment is that of the rule for such comments. -/
theorem decision_conditional (hf : f.policy.HasLocalListeners) (name condition : String) :
    (f.decide { name := name, condition := some condition } none false).1 =
      decideEndTag (f.policy.elementRule? Policy.conditionalName) := by
  have hrule : f.policy.ruleFor? { name := name, condition := some condition } =
      f.policy.elementRule? Policy.conditionalName := rfl
  have htag := sameTag_decideElement (hf.ruleFor? { name := name, condition := some condition })
    { name := name, condition := some condition }
  rw [hrule] at htag
  simp only [decide, hrule]
  rw [if_pos (by rw [Element.isConditional, htag.condition]; rfl)]
  cases f.policy.elementRule? Policy.conditionalName <;> rfl

/-- How the states of the two runs go together: `es` are open in the first, `es'` in the second. -/
structure Retraces (f : Filter) (st st' : PieceState) (left : List LeftOpen)
    (es es' : List (OpenEntry OpenedElement)) : Prop where
  calm : f.Calm st es
  internal : st'.guard.Internal
  covers : st.guard.Covers st'.guard
  represents : st'.openElements.Represents es'
  interleaved : Interleaved left es es'

/-- The second run writes for a piece what the first one wrote, and the runs go on together. -/
structure FollowsOn (f : Filter) (st st' : PieceState) (left : List LeftOpen) (p : Piece) :
    Prop where
  text : (f.outputFrom st' (f.written st p)).toList = (f.written st p).flatMap Piece.write
  goesOn : ∃ es es', f.Retraces (f.step st p).2 (f.stateAfter st' (f.written st p))
    (leavesOpen st p ++ left) es es'

namespace Retraces

variable {st st' : PieceState} {left : List LeftOpen} {es es' : List (OpenEntry OpenedElement)}

theorem empty (f : Filter) : f.Retraces {} {} [] [] [] :=
  ⟨.empty f, (fun _ _ h => nomatch h), ObjectGuard.covers_empty, .empty, .nil⟩

/-- A piece that changes neither state. -/
theorem leaf (h : f.Retraces st st' left es es') {p : Piece} (hstep : (f.step st p).2 = st)
    (hleft : leavesOpen st p = []) (hstay : f.stateAfter st' (f.written st p) = st')
    (htext : (f.outputFrom st' (f.written st p)).toList = (f.written st p).flatMap Piece.write) :
    f.FollowsOn st st' left p := by
  refine ⟨htext, es, es', ?_⟩
  rw [hstep, hleft, hstay]
  exact h

/-- A start tag that passes is settled when it is written. -/
theorem startTag (hf : f.Steady) (h : f.Retraces st st' left es es') {e : Element}
    (he : e.WellRead) (hpasses : f.Passes st (.startTag e)) :
    f.FollowsOn st st' left (.startTag e) := by
  obtain ⟨hallowed, henabled⟩ := hpasses
  have hshaped : (f.verdict st e).element.Shaped :=
    shaped_judge hf.protectsLinksOnly st.guard he.shaped _ false
  have hsettled : f.Settled (f.verdict st e).element.asWritten :=
    settled_asWritten hf.toPlain h.calm.internal he.condition he.shaped _ false hallowed henabled
  obtain ⟨key?, g, hout, hstate, hguards', hinternal⟩ := step_settled hf.toPlain h.internal hsettled
    hshaped.asWritten_asWritten fun a ha => (hshaped.asWritten.attributes a ha).enabled
  have hguards : Guards f st.guard (f.verdict st e).element (f.verdict st e).objectKey?
      (f.verdict st e).guard := guards_judge hallowed
  have hattributes : (f.verdict st e).element.asWritten.attributes =
      (f.verdict st e).element.attributes.map Attribute.asWritten := by
    rw [Element.asWritten, Attributes.enabled, List.filter_eq_self.2 henabled]
    rfl
  have hsetting : f.settingGiven? (f.verdict st e).element.asWritten =
      f.settingGiven? (f.verdict st e).element := by
    rw [settingGiven?, hattributes, settingOf?_asWritten hshaped.attributes]
    rfl
  obtain ⟨rfl, hcovers⟩ := covers_guards h.covers hguards hguards' hsetting rfl
  have hcalm := h.calm.startTag hf.toPlain he.name hallowed
  have hself : (f.verdict st e).element.asWritten.selfClosed =
      (f.verdict st e).element.selfClosed := rfl
  have hafter : f.stateAfter st' (f.written st (.startTag e)) =
      (f.step st' (.startTag (f.verdict st e).element.asWritten)).2 := rfl
  refine ⟨?_, ?_⟩
  · rw [written, outputFrom_cons, outputFrom_nil, String.append_empty, hout,
      List.flatMap_singleton]
    rfl
  · rw [hafter, hstate, hself]
    by_cases hclosed : (f.verdict st e).element.selfClosed = true
    · rw [if_pos hclosed] at hcalm
      rw [if_pos hclosed]
      exact ⟨es, es', hcalm, hinternal, hcovers, h.represents, h.interleaved⟩
    · rw [if_neg hclosed] at hcalm
      rw [if_neg hclosed]
      have hitem : (f.verdict st e).opened = ⟨(f.verdict st e).element.name, .allowed,
          (f.verdict st e).objectKey?⟩ := by
        rw [Verdict.opened, hallowed]
      exact ⟨_, _, hcalm, hinternal, hcovers, h.represents.push _ _,
        .kept rfl hitem.symm (fun hover => (Bool.false_ne_true hover).elim) h.interleaved⟩

/-- An end tag that closes nothing does so again. -/
theorem strayEndTag (h : f.Retraces st st' left es es') {name raw : String}
    (hname : IsTagName name.toList) (hfinds : FindsAgain st left (.endTag name raw))
    (hes : ∀ y ∈ es, y.key ≠ AsciiCase.lower name) :
    f.FollowsOn st st' left (.endTag name raw) := by
  have hnone := h.calm.represents.close?_eq_none hes
  have hleft : ∀ l ∈ left, l.key ≠ AsciiCase.lower name := by
    intro l hl hkey
    rcases hfinds with hfinds | hfinds
    · rw [hnone] at hfinds
      cases hfinds
    · have hnumber := hfinds l hl hkey
      rw [h.calm.represents.numberOf?_eq_none hes] at hnumber
      cases hnumber
  have hagain : st'.openElements.close? name = none :=
    h.represents.close?_eq_none (h.interleaved.key_ne hes hleft)
  have hwritten : f.written st (.endTag name raw) =
      writtenEndTag name (decideEndTag (f.policy.elementRule? name)) := by
    rw [written, hnone]
  refine h.leaf ?_ ?_ ?_ ?_
  · rw [step, stepEndTag, hnone]
  · rw [leavesOpen, hnone]
  · rw [hwritten]
    cases hd : decideEndTag (f.policy.elementRule? name) with
    | removed => rfl
    | disabled => rfl
    | allowed =>
      show (f.stepEndTag st' name).2 = st'
      rw [stepEndTag, hagain]
  · rw [hwritten]
    cases hd : decideEndTag (f.policy.elementRule? name) with
    | removed => rfl
    | disabled =>
      have hplain := noAngles_disabledEndTag (noAngles_of_isTagName hname)
      rw [writtenEndTag, outputFrom_cons, outputFrom_nil, String.append_empty, Filter.step,
        renderText_of_noAngles hplain, List.flatMap_singleton]
      rfl
    | allowed =>
      rw [writtenEndTag, outputFrom_cons, outputFrom_nil, String.append_empty, step, stepEndTag,
        hagain, List.flatMap_singleton]
      dsimp only
      rw [renderStrayEndTag, hd, renderEndTag, List.map_nil, String.join_nil, String.empty_append]
      rfl

/-- An end tag that comes too late leaves its element open in the second run. -/
theorem overdueEndTag {before after : List (OpenEntry OpenedElement)} {x : OpenEntry OpenedElement}
    (h : f.Retraces st st' left (before ++ x :: after) es') {name raw : String}
    (hbefore : ∀ y ∈ before, y.key ≠ x.key) (hkey : x.key = AsciiCase.lower name)
    {c : Closure OpenedElement} (hc : st.openElements.close? name = some c)
    (hcloses : Closes st.openElements c before x after) (hover : c.overdue = true) :
    f.FollowsOn st st' left (.endTag name raw) := by
  have hstep : (f.step st (.endTag name raw)).2 =
      ⟨c.remaining, (endObject st.guard c.item.objectKey? (!c.overdue)).2⟩ := by
    rw [step, stepEndTag, hc]
    dsimp only
    rw [if_pos hover]
  have hwritten : f.written st (.endTag name raw) = [] := by
    rw [written, hc]
    dsimp only
    rw [if_pos hover]
  have hleaves : leavesOpen st (.endTag name raw) = [⟨x.key, x.number + 1⟩] := by
    rw [leavesOpen, hc, h.calm.represents.numberOf?_eq hbefore hkey, hkey]
    dsimp only
    rw [if_pos hover]
    rfl
  refine ⟨by rw [hwritten]; rfl, before.map OpenEntry.delay ++ after, es', ?_⟩
  rw [hstep, hwritten, hleaves]
  have hordered := (List.pairwise_append.1 h.calm.represents.ordered).2.1
  exact ⟨h.calm.close hcloses _, h.internal,
    covers_endObject h.covers c.item.objectKey? none _ true, h.represents,
    h.interleaved.leave (List.pairwise_cons.1 hordered).1⟩

/-- What the first run does with an end tag in its place. -/
theorem endTag_inPlace {name : String} (raw : String) {c : Closure OpenedElement}
    (hc : st.openElements.close? name = some c) (hover : c.overdue = false)
    {settings : List SafetySetting} (hsettings : (endObject st.guard c.item.objectKey? true).1 =
      settings.map fun s => (s.name, s.value .internal)) :
    (f.step st (.endTag name raw)).2 =
        ⟨c.remaining, (endObject st.guard c.item.objectKey? true).2⟩ ∧
      f.written st (.endTag name raw) =
        settingPieces settings ++ [.endTag c.item.name ("</" ++ c.item.name ++ ">")] ∧
      leavesOpen st (.endTag name raw) =
        settings.map fun _ => ⟨"param", st.openElements.nextNumber⟩ := by
  rw [Filter.step, stepEndTag, written, leavesOpen, hc]
  dsimp only
  rw [hover, if_neg (by decide), if_neg (by decide), if_neg (by decide), Bool.not_false, hsettings]
  refine ⟨rfl, rfl, ?_⟩
  rw [List.map_map]
  rfl

/-- What the second run does with an end tag in its place, if nothing is missing. -/
theorem endTag_again {name : String} (raw : String) {c : Closure OpenedElement}
    (hc : st.openElements.close? name = some c) (hover : c.overdue = false)
    (hallowed : c.item.decision = .allowed)
    (hmissing : (endObject st.guard c.item.objectKey? true).1 = []) :
    f.step st (.endTag name raw) = ("</" ++ c.item.name ++ ">",
      ⟨c.remaining, (endObject st.guard c.item.objectKey? true).2⟩) := by
  rw [Filter.step, stepEndTag, hc]
  dsimp only
  rw [hover, if_neg (by decide), Bool.not_false, hmissing, hallowed, renderEndTag, List.map_nil,
    String.join_nil, String.empty_append]

/-- An end tag does not meet what was left open before, nor the parameters before it. -/
theorem opened_le {before after : List (OpenEntry OpenedElement)} {x : OpenEntry OpenedElement}
    (h : f.Retraces st st' left (before ++ x :: after) es') {name raw : String}
    (hfinds : FindsAgain st left (.endTag name raw)) (hbefore : ∀ y ∈ before, y.key ≠ x.key)
    (hkey : x.key = AsciiCase.lower name) {c : Closure OpenedElement}
    (hc : st.openElements.close? name = some c) (hover : c.overdue = false)
    {settings : List SafetySetting}
    (hobject : settings ≠ [] → AsciiCase.same x.item.name "object" = true) {l : LeftOpen}
    (hl : l ∈ (settings.map fun _ => ⟨"param", st.openElements.nextNumber⟩) ++ left)
    (hsame : l.key = x.key) : l.opened ≤ x.number := by
  rcases List.mem_append.1 hl with hl | hl
  · obtain ⟨s, hs, rfl⟩ := List.mem_map.1 hl
    have hstanding := h.calm.standing x (List.mem_append_right _ (List.mem_cons_self ..))
    have hlower := (AsciiCase.same_iff ..).1 (hobject (List.ne_nil_of_mem hs))
    have hparam : "param" = x.key := hsame
    rw [hstanding.key, hlower] at hparam
    exact absurd hparam (by decide)
  · rcases hfinds with hfinds | hfinds
    · rw [hc, Option.any_some, hover] at hfinds
      cases hfinds
    · have hnumber := hfinds l hl (hsame.trans hkey)
      rw [h.calm.represents.numberOf?_eq hbefore hkey, Option.any_some] at hnumber
      exact of_decide_eq_true hnumber

/-- **An end tag that is written closes the same element again.** The parameters before it are given
to the object once more, so that none is missing in the second run; they stay open there.

*Proof sketch.* After the parameters, the entries of the second run are those of the first, with the
parameters before them. None of these has the name of the end tag, nor has an element that was left
open inside, so it closes the same entry. That is not overdue if it was not, and every setting of
its frame was either given in the first run or is among the parameters. -/
theorem endTag (hf : f.Steady) {before after : List (OpenEntry OpenedElement)}
    {x : OpenEntry OpenedElement} (h : f.Retraces st st' left (before ++ x :: after) es')
    {name raw : String} (hfinds : FindsAgain st left (.endTag name raw))
    (hbefore : ∀ y ∈ before, y.key ≠ x.key) (hkey : x.key = AsciiCase.lower name)
    {c : Closure OpenedElement} (hc : st.openElements.close? name = some c)
    (hcloses : Closes st.openElements c before x after) (hover : c.overdue = false) :
    f.FollowsOn st st' left (.endTag name raw) := by
  have hstanding := h.calm.standing x (List.mem_append_right _ (List.mem_cons_self ..))
  obtain ⟨settings, hsettings, hnone, hgives⟩ :=
    exists_settings h.calm.internal c.item.objectKey?
  obtain ⟨hstep, hwritten, hleaves⟩ := endTag_inPlace (f := f) raw hc hover hsettings
  rw [hcloses.item] at hnone hgives hwritten
  have hobject : settings ≠ [] →
      f.settings.protectObjects = true ∧ AsciiCase.same x.item.name "object" = true :=
    fun hsome => hstanding.protects (Option.isSome_iff_ne_none.2 fun hkey => hsome (hnone hkey))
  have hagain := givesAgain_settingPieces hf settings (fun hsome => (hobject hsome).1) h.internal
    h.represents
  obtain ⟨more, hmore, hkeys⟩ := hagain.represents
  -- the entries of the second run after the parameters
  have hinterleaved : Interleaved (leavesOpen st (.endTag name raw) ++ left)
      (before ++ x :: after) (more ++ es') := by
    refine (h.interleaved.mono fun l hl => List.mem_append_right _ hl).append fun y hy => ?_
    obtain ⟨hsome, hparam⟩ := hkeys y hy
    obtain ⟨s, hs⟩ := List.exists_mem_of_ne_nil settings hsome
    refine ⟨⟨"param", st.openElements.nextNumber⟩, List.mem_append_left _ ?_, hparam,
      h.calm.represents.below⟩
    rw [hleaves]
    exact List.mem_map.2 ⟨s, hs, rfl⟩
  have hinner : ∀ l ∈ leavesOpen st (.endTag name raw) ++ left, l.key = x.key →
      l.opened ≤ x.number := by
    rw [hleaves]
    exact fun l => h.opened_le hfinds hbefore hkey hc hover fun hsome => (hobject hsome).2
  obtain ⟨before', x', after', heq, hbefore', hkey', hitem', hover', hinterleaved'⟩ :=
    hinterleaved.close hbefore hinner
  rw [heq] at hmore
  obtain ⟨c', hc', hcloses'⟩ := hmore.close?_eq_some hbefore' (hkey'.trans hstanding.key)
  have hitem : c'.item = x.item := hcloses'.item.trans hitem'
  have hintime : c'.overdue = false := by
    rw [← Bool.not_eq_true, hcloses'.overdue]
    intro hlate
    rw [hcloses.overdue, hover' hlate] at hover
    cases hover
  have hmissing : (endObject (f.stateAfter st' (settingPieces settings)).guard
      c'.item.objectKey? true).1 = [] := by
    refine endObject_of_gives fun key hsome => ?_
    rw [hitem] at hsome
    obtain ⟨hopen, hlt⟩ := hstanding.frame key hsome
    exact hagain.gives h.covers hlt (hgives key hsome hopen)
  have hlast := endTag_again (f := f) ("</" ++ x.item.name ++ ">") hc' hintime
    (by rw [hitem, hstanding.decision]) hmissing
  rw [hitem] at hlast
  refine ⟨?_, before.map OpenEntry.delay ++ after, before'.map OpenEntry.delay ++ after', ?_⟩
  · rw [hwritten, outputFrom_append, outputFrom_cons, outputFrom_nil, String.append_empty, hlast,
      String.toList_append, hagain.text, List.flatMap_append, List.flatMap_singleton]
    rfl
  · rw [hstep, hwritten, stateAfter_append]
    show f.Retraces _ (f.step (f.stateAfter st' (settingPieces settings)) _).2 _ _ _
    rw [hlast]
    refine ⟨h.calm.close hcloses true, ?_, covers_endObject (hagain.covers h.covers) _ _ _ _,
      hcloses'.remaining, hinterleaved'⟩
    rw [endObject_guard]
    exact hagain.internal

/-- **What is written for a piece that passes is written again**, and the runs go on together. -/
theorem step (hf : f.Steady) (h : f.Retraces st st' left es es') {p : Piece} (hp : p.WellRead)
    (hpasses : f.Passes st p) (hfinds : FindsAgain st left p) : f.FollowsOn st st' left p := by
  cases p with
  | text raw =>
    refine h.leaf rfl rfl rfl ?_
    rw [written, outputFrom_cons, outputFrom_nil, String.append_empty, List.flatMap_singleton,
      Filter.step, renderText_of_noAngles (noAngles_escapeAngles raw)]
    rfl
  | comment body =>
    refine h.leaf rfl rfl rfl ?_
    rw [written, outputFrom_cons, outputFrom_nil, String.append_empty, List.flatMap_singleton,
      Filter.step, renderComment, if_pos hf.escape,
      escapeAngles_of_noAngles (noAngles_escapeAngles body)]
    simp [Piece.write]
  | conditionalStart e =>
    obtain ⟨name, condition, rfl, -, -⟩ := hp
    refine h.leaf rfl rfl rfl ?_
    have hdecision := decision_conditional hf.hasLocalListeners name condition
    have hallowed : (f.decide { name := name, condition := some condition } none false).1 =
      .allowed := hpasses
    rw [hallowed, ← decision_conditional hf.hasLocalListeners ("<!--[" ++ condition ++ "]>")
      condition] at hdecision
    have htag := sameTag_decide hf.hasLocalListeners
      { name := "<!--[" ++ condition ++ "]>", condition := some condition } none false
    simp only [written, Option.toList_some, List.map_cons, List.map_nil, outputFrom_cons,
      outputFrom_nil, String.append_empty, List.flatMap_singleton, Filter.step, renderStartTag,
      htag.condition, ← hdecision, renderConditionalStart, if_true]
    rfl
  | conditionalEnd raw =>
    by_cases hd : decideEndTag (f.policy.elementRule? Policy.conditionalName) = .allowed
    · have hwritten : f.written st (.conditionalEnd raw) = [.conditionalEnd "<![endif]-->"] :=
        if_pos hd
      refine h.leaf rfl rfl (by rw [hwritten]; rfl) ?_
      rw [hwritten, outputFrom_cons, outputFrom_nil, String.append_empty, List.flatMap_singleton,
        Filter.step, renderConditionalEnd, if_pos hd]
      rfl
    · have hwritten : f.written st (.conditionalEnd raw) = [] := if_neg hd
      exact h.leaf rfl rfl (by rw [hwritten]; rfl) (by rw [hwritten]; rfl)
  | startTag e => exact h.startTag hf hp hpasses
  | endTag name raw =>
    rcases OpenEntry.split_cases es (AsciiCase.lower name) with
      hnone | ⟨before, x, after, rfl, hbefore, hkey⟩
    · exact h.strayEndTag hp hfinds hnone
    · obtain ⟨c, hc, hcloses⟩ := h.calm.represents.close?_eq_some hbefore hkey
      cases hover : c.overdue with
      | true => exact h.overdueEndTag hbefore hkey hc hcloses hover
      | false => exact h.endTag hf hfinds hbefore hkey hc hcloses hover

/-- **The second run writes what the first one wrote.** The induction is on the pieces. -/
theorem run (hf : f.Steady) (h : f.Retraces st st' left es es') {ps : List Piece}
    (hps : ∀ p ∈ ps, p.WellRead) (hpasses : f.PassesFrom st ps)
    (hback : f.ReadsBackFrom st left ps) :
    SpellsBack (f.writtenFrom st ps) (f.outputFrom st ps) ∧
      (f.outputFrom st' (f.writtenFrom st ps)).toList =
        (f.writtenFrom st ps).flatMap Piece.write := by
  induction ps generalizing st st' left es es' with
  | nil => exact ⟨.nil, rfl⟩
  | cons p ps ih =>
    obtain _ | ⟨hpass, hpasses⟩ := hpasses
    obtain _ | ⟨hread, hfinds, hback⟩ := hback
    have hp := hps p (List.mem_cons_self ..)
    obtain ⟨htext, es₁, es₁', hnext⟩ := h.step hf hp hpass hfinds
    obtain ⟨hspells, hagain⟩ :=
      ih hnext (fun q hq => hps q (List.mem_cons_of_mem _ hq)) hpasses hback
    refine ⟨?_, ?_⟩
    · rw [writtenFrom, outputFrom_cons]
      exact (spellsBack_step hf h.calm hp hpass hread).append hspells
    · rw [writtenFrom, outputFrom_append, String.toList_append, htext, hagain, List.flatMap_append]

end Retraces

/-! ## Filtering again -/

/-- The baseline filter allows the parameters that it adds. -/
theorem steady_baseline : Filter.baseline.Steady := by
  refine ⟨plain_baseline, rfl, rfl, fun s => ?_⟩
  have hjudged : ∀ s ∈ SafetySetting.all,
      (Filter.baseline.judge {} (s.param .internal) none false).decision = .allowed ∧
      (∀ a ∈ (Filter.baseline.judge {} (s.param .internal) none false).element.attributes.toList,
        a.enabled = true) ∧
      (Filter.baseline.judge {} (s.param .internal) none false).element.asWritten =
        s.param .internal := by
    rw [baseline_eq]
    decide +kernel
  obtain ⟨hallowed, henabled, hwritten⟩ := hjudged s s.mem_all
  have hshaped := (s.wellWritten_param .internal).toWellRead.shaped
  rw [← hwritten]
  exact settled_asWritten plain_baseline ObjectGuard.internal_empty rfl hshaped none false hallowed
    henabled

/-- **Filtering again does not change the filtered text** of an input in which nothing is
neutralized, if what is written is read again as it was and its end tags find the same elements.

*Proof sketch.* The filtered text is read again as the pieces that were written (`spellsBack_step`).
The run over these follows the first one piece by piece (`Retraces.step`): its start tags are
settled, and between the elements that were open in the first run there are only some that were left
open. So it writes what the first one wrote. The tree does the same, since the filter does not look
at places. -/
theorem refiltered (hf : f.Steady) (input : String)
    (hpasses : f.PassesFrom {} (Piece.ofText input))
    (hback : f.ReadsBackFrom {} [] (Piece.ofText input)) :
    f.byPiece (f.byPiece input) = f.byPiece input ∧ f.byTree (f.byTree input) = f.byTree input := by
  have hread : ∀ p ∈ Piece.ofText input, p.WellRead := by
    rw [Piece.ofText_eq_pieces]
    exact wellRead_pieces _
  have hstream : f.byPiece (f.byPiece input) = f.byPiece input := by
    obtain ⟨hspells, hagain⟩ := (Retraces.empty f).run hf hread hpasses hback
    have hsecond : f.byPiece (f.byPiece input) =
        f.outputFrom {} (f.writtenFrom {} (Piece.ofText input)) :=
      byPiece_write hspells.rereads hspells.text
    refine String.toList_inj.1 ?_
    rw [hsecond, hagain]
    exact hspells.text.symm
  have hagree : ∀ text, f.byTree text = f.byPiece text :=
    byTree_eq_byPiece_of_ignoresPlace hf.hasLocalListeners hf.place hf.network
  exact ⟨hstream, by rw [hagree, hagree, hstream]⟩

/-- An object that is given its settings, with an end tag that comes too late, and another element
of that name: all this is the same the second time. -/
theorem baseline_refiltered_object :
    Filter.baseline.Steady ∧
      Filter.baseline.PassesFrom {} (Piece.ofText "<object><i></object></i><i>x</i>") ∧
      Filter.baseline.ReadsBackFrom {} [] (Piece.ofText "<object><i></object></i><i>x</i>") ∧
      Filter.baseline.byPiece (Filter.baseline.byPiece "<object><i></object></i><i>x</i>") =
        Filter.baseline.byPiece "<object><i></object></i><i>x</i>" ∧
      Filter.baseline.byTree (Filter.baseline.byTree "<object><i></object></i><i>x</i>") =
        Filter.baseline.byTree "<object><i></object></i><i>x</i>" := by
  have hread : Filter.baseline.PassesFrom {} (Piece.ofText "<object><i></object></i><i>x</i>") ∧
      Filter.baseline.ReadsBackFrom {} [] (Piece.ofText "<object><i></object></i><i>x</i>") := by
    decide +kernel
  exact ⟨steady_baseline, hread.1, hread.2, refiltered steady_baseline _ hread.1 hread.2⟩

/-- An end tag that was left out lets the next one of its name meet another element: the first run
closes both elements `b`, one of them too late, and in the second run only the late one is left for
the end tag. -/
theorem baseline_not_refiltered :
    Filter.baseline.PassesFrom {} (Piece.ofText "<b><i><b></i></b></b>") ∧
      Filter.baseline.byTree "<b><i><b></i></b></b>" = "<b><i><b></i></b>" ∧
      Filter.baseline.byPiece "<b><i><b></i></b></b>" = "<b><i><b></i></b>" ∧
      Filter.baseline.byTree (Filter.baseline.byTree "<b><i><b></i></b></b>") ≠
        Filter.baseline.byTree "<b><i><b></i></b></b>" ∧
      Filter.baseline.byPiece (Filter.baseline.byPiece "<b><i><b></i></b></b>") ≠
        Filter.baseline.byPiece "<b><i><b></i></b></b>" := by
  have hfiltered : Filter.baseline.PassesFrom {} (Piece.ofText "<b><i><b></i></b></b>") ∧
      Filter.baseline.byTree "<b><i><b></i></b></b>" = "<b><i><b></i></b>" ∧
      Filter.baseline.byPiece "<b><i><b></i></b></b>" = "<b><i><b></i></b>" ∧
      Filter.baseline.byTree "<b><i><b></i></b>" = "<b><i><b></i>" ∧
      Filter.baseline.byPiece "<b><i><b></i></b>" = "<b><i><b></i>" := by
    decide +kernel
  obtain ⟨hpasses, htree, hpiece, htree', hpiece'⟩ := hfiltered
  refine ⟨hpasses, htree, hpiece, ?_, ?_⟩
  · rw [htree, htree']
    decide
  · rw [hpiece, hpiece']
    decide

end Filter

end MarkupFilter
