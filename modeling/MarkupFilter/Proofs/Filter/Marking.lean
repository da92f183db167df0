import MarkupFilter.Proofs.Filter.Markers
import MarkupFilter.Proofs.Filter.Scenes

/-!
# Filtering with and without markers

Whether a filter writes markers has no influence on what it does otherwise. Two runs on the same
input, one with markers and one without, decide the same and know the same of objects at every piece
or node, and they write the same there but for a marker before it.

## Main definitions

* `Deed` — what a filter does at one piece or node.
* `Filter.pieceDeeds`, `Filter.treeDeeds` — what it does along the pieces or the tree of a text.
* `Deed.Marked` — two filters do the same, but the first writes a marker.

## Main results

* `Filter.join_pieceDeeds`, `Filter.join_treeDeeds` — what is written makes up the filtered text.
* `Filter.marked_step`, `Filter.marked_nodeDeeds` — one piece, and one node with those below it.
* `Filter.marked_withMarkers` — runs with and without markers go together.
-/

set_option autoImplicit false

namespace MarkupFilter

/-! ## Deeds -/

/-- What a filter does at one piece or node: what it decides on an element and its attributes, what
it writes, and what the guard knows after that. -/
structure Deed where
  decided? : Option (Decision × Element) := none
  written : String
  guard : ObjectGuard

namespace Deed

/-- What is written in a row of deeds. -/
def text (deeds : List Deed) : String :=
  String.join (deeds.map written)

/-- The guard after a row of deeds that starts with the guard `g`. -/
def guardAfter (g : ObjectGuard) (deeds : List Deed) : ObjectGuard :=
  deeds.foldl (fun _ deed => deed.guard) g

@[simp] theorem text_nil : text [] = "" := rfl

@[simp] theorem text_cons (d : Deed) (ds : List Deed) : text (d :: ds) = d.written ++ text ds := by
  rw [text, List.map_cons, String.join_cons, text]

@[simp] theorem text_append (ds es : List Deed) : text (ds ++ es) = text ds ++ text es := by
  induction ds with
  | nil => simp
  | cons d ds ih => rw [List.cons_append, text_cons, text_cons, ih, String.append_assoc]

@[simp] theorem guardAfter_nil (g : ObjectGuard) : guardAfter g [] = g := rfl

@[simp] theorem guardAfter_cons (g : ObjectGuard) (d : Deed) (ds : List Deed) :
    guardAfter g (d :: ds) = guardAfter d.guard ds := rfl

@[simp] theorem guardAfter_append (g : ObjectGuard) (ds es : List Deed) :
    guardAfter g (ds ++ es) = guardAfter (guardAfter g ds) es := by
  rw [guardAfter, List.foldl_append]
  rfl

/-- The same is decided in both deeds, and the guard is the same after them. The first writes what
the second writes, behind a marker. -/
structure Marked (d e : Deed) : Prop where
  decided? : d.decided? = e.decided?
  guard : d.guard = e.guard
  written : ∃ m, IsMarker m ∧ d.written = m ++ e.written

/-- A deed without a marker. -/
theorem Marked.refl (d : Deed) : Marked d d :=
  ⟨rfl, rfl, "", .nothing, String.empty_append.symm⟩

theorem guardAfter_of_marked {ds es : List Deed} (h : List.Forall₂ Marked ds es)
    (g : ObjectGuard) : guardAfter g ds = guardAfter g es := by
  induction h generalizing g with
  | nil => rfl
  | cons hhead _ ih => rw [guardAfter_cons, guardAfter_cons, hhead.guard, ih]

end Deed

open Deed (Marked)

namespace Filter

variable (f : Filter)

/-! ## Along the pieces -/

/-- What is decided on a tag. -/
def decidedAt? (st : PieceState) : Piece → Option (Decision × Element)
  | .conditionalStart e => some (f.decide e none false)
  | .startTag e =>
    let v := f.judge st.guard e (st.openElements.current?.map OpenedElement.name) false
    some (v.decision, v.element)
  | _ => none

/-- What the filter does at each of the pieces that follow a state. -/
def pieceDeedsFrom : PieceState → List Piece → List Deed
  | _, [] => []
  | st, p :: ps =>
    ⟨f.decidedAt? st p, (f.step st p).1, (f.step st p).2.guard⟩ ::
      pieceDeedsFrom (f.step st p).2 ps

/-- What the filter does at each piece of `input`. -/
def pieceDeeds (input : String) : List Deed :=
  f.pieceDeedsFrom {} (Piece.ofText input)

theorem map_written_pieceDeedsFrom (st : PieceState) (ps : List Piece) :
    (f.pieceDeedsFrom st ps).map Deed.written = f.outputsFrom st ps := by
  induction ps generalizing st with
  | nil => rfl
  | cons p ps ih => rw [pieceDeedsFrom, List.map_cons, ih, outputsFrom]

/-- What is written at the pieces of a text makes up the filtered text. -/
theorem join_pieceDeeds (input : String) : Deed.text (f.pieceDeeds input) = f.byPiece input := by
  rw [Deed.text, pieceDeeds, map_written_pieceDeedsFrom]
  rfl

/-! ## Along the tree -/

mutual

/-- What the filter does at a node in the element `parent?` and at those below it: at the start of
an element, at what is inside it, and at its end. -/
def nodeDeeds (f : Filter) (parent? : Option String) (g : ObjectGuard) : Markup → List Deed
  | .node (.text raw) _ => [⟨none, renderText raw, g⟩]
  | .node (.stray _ (.endTag name)) _ => [⟨none, f.renderStrayEndTag name, g⟩]
  | .node (.stray _ .conditional) _ => [⟨none, f.renderConditionalEnd, g⟩]
  | .node (.comment body) _ => [⟨none, f.renderComment body, g⟩]
  | .node .fragment _ => []
  | .node (.element e) cs =>
    let v := f.judge g e parent? e.isNeverClosed
    let inside := f.nodesDeeds (some v.element.name) v.guard cs
    let ended := f.closeElement v ⟨Deed.guardAfter v.guard inside, ""⟩
    ⟨some (v.decision, v.element), f.renderStartTag v.element v.decision, v.guard⟩ ::
      (inside ++ [⟨none, ended.text, ended.guard⟩])

/-- What the filter does at a row of nodes in the element `parent?`. -/
def nodesDeeds (f : Filter) (parent? : Option String) (g : ObjectGuard) : List Markup → List Deed
  | [] => []
  | t :: ts =>
    let deeds := f.nodeDeeds parent? g t
    deeds ++ f.nodesDeeds parent? (Deed.guardAfter g deeds) ts

end

/-- What the filter does at the nodes of a tree. -/
def treeDeeds : Markup → List Deed
  | .node _ children => f.nodesDeeds none {} (children.map (f.policy.prepare Policy.listenerDepth))

/-- What is written before the end of an element has no influence on the end. -/
theorem closeElement_eq (v : Verdict) (p : Progress) :
    f.closeElement v p = ⟨(f.closeElement v ⟨p.guard, ""⟩).guard,
      p.text ++ (f.closeElement v ⟨p.guard, ""⟩).text⟩ := by
  unfold closeElement
  split <;> simp [Progress.write]

mutual

/-- The progress through a node is that of what the filter does there. -/
theorem node_eq_deeds (parent? : Option String) (p : Progress) : ∀ t : Markup,
    (f.node parent? p t).2 = ⟨Deed.guardAfter p.guard (f.nodeDeeds parent? p.guard t),
      p.text ++ Deed.text (f.nodeDeeds parent? p.guard t)⟩
  | .node (.text raw) _ => by simp [node, nodeDeeds, Progress.write]
  | .node (.stray _ (.endTag name)) _ => by simp [node, nodeDeeds, Progress.write]
  | .node (.stray _ .conditional) _ => by simp [node, nodeDeeds, Progress.write]
  | .node (.comment body) _ => by simp [node, nodeDeeds, Progress.write]
  | .node .fragment _ => by simp [node, nodeDeeds]
  | .node (.element e) cs => by
    rw [node, nodeDeeds]
    dsimp only
    rw [nodes_eq_deeds, closeElement_eq]
    simp [Progress.write, String.append_assoc]

/-- So it is for a row of nodes. -/
theorem nodes_eq_deeds (parent? : Option String) (p : Progress) : ∀ ts : List Markup,
    (f.nodes parent? p ts).2 = ⟨Deed.guardAfter p.guard (f.nodesDeeds parent? p.guard ts),
      p.text ++ Deed.text (f.nodesDeeds parent? p.guard ts)⟩
  | [] => by simp [nodes, nodesDeeds]
  | t :: ts => by
    rw [nodes, nodesDeeds]
    dsimp only
    rw [nodes_eq_deeds, node_eq_deeds]
    simp [String.append_assoc]

end

/-- What is written at the nodes of a tree makes up the output for the tree. -/
theorem join_treeDeeds (t : Markup) : Deed.text (f.treeDeeds t) = (f.tree t).2 := by
  obtain ⟨a, children⟩ := t
  rw [tree, treeDeeds]
  dsimp only
  rw [nodes_eq_deeds]
  exact String.empty_append.symm

/-! ## Two runs -/

variable {f}

/-- Markers have no influence on what is decided, and on the guard. -/
theorem decide_withMarkers (on : Bool) : (f.withMarkers on).decide = f.decide :=
  rfl

theorem judge_withMarkers (on : Bool) : (f.withMarkers on).judge = f.judge :=
  rfl

/-- The attributes of an element that is no conditional comment can be written after it is judged. -/
theorem shaped_verdict (hf : f.policy.ListenerFree) (g : ObjectGuard) {e : Element}
    (he : (Content.element e).WellRead) (parent? : Option String) (neverClosed : Bool)
    (hc : (f.judge g e parent? neverClosed).element.condition = none) :
    (f.judge g e parent? neverClosed).element.Shaped := by
  have htag := sameTag_judge hf.hasLocalListeners g e parent? neverClosed
  have hnone : e.condition = none := htag.condition ▸ hc
  exact (passed_judge hf g hnone (he.shaped hnone) parent? neverClosed).2.1

/-- **One piece**: the states after it are the same, and the same is written behind a marker. -/
theorem marked_step (hf : f.policy.ListenerFree) (st : PieceState) {p : Piece} (hp : p.WellRead) :
    ((f.withMarkers true).step st p).2 = ((f.withMarkers false).step st p).2 ∧
      ∃ m, IsMarker m ∧
        ((f.withMarkers true).step st p).1 = m ++ ((f.withMarkers false).step st p).1 := by
  have hsame : ∀ text : String, ∃ m, IsMarker m ∧ text = m ++ text := fun text =>
    ⟨"", .nothing, String.empty_append.symm⟩
  cases p with
  | text raw => exact ⟨rfl, hsame _⟩
  | comment body => exact ⟨rfl, hsame _⟩
  | conditionalEnd raw => exact ⟨rfl, hsame _⟩
  | conditionalStart e =>
    obtain ⟨name, condition, rfl, -, -⟩ := hp
    have htag := sameTag_decide hf.hasLocalListeners
      { name := name, condition := some condition } none false
    simp only [step, decide_withMarkers]
    refine ⟨trivial, f.exists_marker_renderStartTag (fun hnone => ?_) _⟩
    rw [htag.condition] at hnone
    cases hnone
  | startTag e =>
    have he : (Content.element e).WellRead := .inl ⟨hp.condition, hp.shaped⟩
    exact ⟨rfl, f.exists_marker_renderStartTag (shaped_verdict hf _ he _ _) _⟩
  | endTag name raw =>
    rw [step, step, stepEndTag, stepEndTag]
    cases st.openElements.close? name with
    | none => exact ⟨rfl, hsame _⟩
    | some c =>
      dsimp only
      split
      · exact ⟨rfl, hsame _⟩
      · exact ⟨rfl, hsame _⟩

/-- **Runs along the pieces** go together. The induction is on the pieces. -/
theorem marked_pieceDeedsFrom (hf : f.policy.ListenerFree) {ps : List Piece}
    (hps : ∀ p ∈ ps, p.WellRead) (st : PieceState) :
    List.Forall₂ Marked ((f.withMarkers true).pieceDeedsFrom st ps)
      ((f.withMarkers false).pieceDeedsFrom st ps) := by
  induction ps generalizing st with
  | nil => exact .nil
  | cons p ps ih =>
    obtain ⟨hstate, hwritten⟩ := marked_step hf st (hps p (List.mem_cons_self ..))
    rw [pieceDeedsFrom, pieceDeedsFrom]
    refine .cons ⟨rfl, congrArg PieceState.guard hstate, hwritten⟩ ?_
    rw [hstate]
    exact ih (fun q hq => hps q (List.mem_cons_of_mem _ hq)) _

mutual

/-- **One node and those below it.** The induction is on the tree. -/
theorem marked_nodeDeeds (hf : f.policy.ListenerFree) (parent? : Option String)
    (g : ObjectGuard) : ∀ t : Markup, (∀ c ∈ t.preorder, c.WellRead) →
      List.Forall₂ Marked ((f.withMarkers true).nodeDeeds parent? g t)
        ((f.withMarkers false).nodeDeeds parent? g t)
  | .node (.text raw) _, _ => by
    rw [nodeDeeds, nodeDeeds]
    exact .cons (.refl _) .nil
  | .node (.stray _ (.endTag name)) _, _ => by
    rw [nodeDeeds, nodeDeeds]
    exact .cons (.refl _) .nil
  | .node (.stray _ .conditional) _, _ => by
    rw [nodeDeeds, nodeDeeds]
    exact .cons (.refl _) .nil
  | .node (.comment body) _, _ => by
    rw [nodeDeeds, nodeDeeds]
    exact .cons (.refl _) .nil
  | .node .fragment _, _ => by
    rw [nodeDeeds, nodeDeeds]
    exact .nil
  | .node (.element e) cs, h => by
    rw [Tree.preorder_node] at h
    have he : (Content.element e).WellRead := h _ (List.mem_cons_self ..)
    have hinside := marked_nodesDeeds hf
      (some (f.judge g e parent? e.isNeverClosed).element.name)
      (f.judge g e parent? e.isNeverClosed).guard cs
      fun c hc => h c (List.mem_cons_of_mem _ hc)
    rw [nodeDeeds, nodeDeeds, judge_withMarkers, judge_withMarkers,
      Deed.guardAfter_of_marked hinside]
    refine .cons ⟨rfl, rfl, ?_⟩ (List.rel_append hinside (.cons (.refl _) .nil))
    exact f.exists_marker_renderStartTag (shaped_verdict hf g he parent? _) _

theorem marked_nodesDeeds (hf : f.policy.ListenerFree) (parent? : Option String)
    (g : ObjectGuard) : ∀ ts : List Markup, (∀ c ∈ Tree.preorderAll ts, c.WellRead) →
      List.Forall₂ Marked ((f.withMarkers true).nodesDeeds parent? g ts)
        ((f.withMarkers false).nodesDeeds parent? g ts)
  | [], _ => by
    rw [nodesDeeds, nodesDeeds]
    exact .nil
  | t :: ts, h => by
    rw [Tree.preorderAll_cons] at h
    have hhead := marked_nodeDeeds hf parent? g t fun c hc => h c (List.mem_append_left _ hc)
    rw [nodesDeeds, nodesDeeds, Deed.guardAfter_of_marked hhead]
    exact List.rel_append hhead
      (marked_nodesDeeds hf parent? _ ts fun c hc => h c (List.mem_append_right _ hc))

end

/-! ## Texts -/

/-- What the nodes of the trees of an outline hold is what the outline holds. -/
theorem mem_preorderAll_trees {nodes : List Outlined} {c : Content}
    (h : c ∈ Tree.preorderAll (Outline.trees nodes)) : ∃ n ∈ nodes, n.content = c := by
  induction hn : nodes.length using Nat.strongRecOn generalizing nodes with
  | _ n ih =>
    cases nodes with
    | nil =>
      rw [Outline.trees_nil] at h
      cases h
    | cons o os =>
      have hinside : (os.take o.extent).length < n := by
        rw [← hn, List.length_take, List.length_cons]
        omega
      have hafter : (os.drop o.extent).length < n := by
        rw [← hn, List.length_drop, List.length_cons]
        omega
      rw [Outline.trees_cons, Tree.preorderAll_cons, Tree.preorder_node, List.cons_append,
        List.mem_cons, List.mem_append] at h
      rcases h with rfl | h | h
      · exact ⟨o, List.mem_cons_self .., rfl⟩
      · obtain ⟨x, hx, rfl⟩ := ih _ hinside h rfl
        exact ⟨x, List.mem_cons_of_mem _ (List.mem_of_mem_take hx), rfl⟩
      · obtain ⟨x, hx, rfl⟩ := ih _ hafter h rfl
        exact ⟨x, List.mem_cons_of_mem _ (List.mem_of_mem_drop hx), rfl⟩

/-- Runs along the tree of a text go together. -/
theorem marked_treeDeeds (hf : f.policy.ListenerFree) (input : String) :
    List.Forall₂ Marked ((f.withMarkers true).treeDeeds (Markup.parse input))
      ((f.withMarkers false).treeDeeds (Markup.parse input)) := by
  have hprepare : ∀ ts : List Markup, ts.map (f.policy.prepare Policy.listenerDepth) = ts :=
    fun ts => (List.map_congr_left fun t _ => Policy.prepare_eq hf.hasLocalListeners _ t).trans
      (List.map_id' ts)
  rw [Markup.parse, Outline.markup, Outline.forest_eq_trees, treeDeeds, treeDeeds]
  dsimp only [withMarkers]
  rw [hprepare]
  refine marked_nodesDeeds hf none {} _ fun c hc => ?_
  obtain ⟨n, hn, rfl⟩ := mem_preorderAll_trees hc
  rw [Piece.ofDocument_eq_ofText] at hn
  exact (Outline.wellRead_ofPieces (wellRead_ofText input)).content n (Array.mem_toList_iff.1 hn)

/-- **Markers change nothing else.** Of two filters without listeners that differ at most in whether
they write markers, let the first write them and the second not. At every piece of a text both decide
the same on the element and on its attributes, and the guard of objects is the same after it; what the
first writes there is a marker, or nothing, and then what the second writes. The same holds at the
start and at the end of every node of the tree. What is written at the pieces is what the filters
hand out for each of them, what is written at the nodes makes up the text that is filtered as a tree;
and a marker is one complete comment without angle brackets in its body, whatever is written behind
it. -/
theorem marked_withMarkers (hf : f.policy.ListenerFree) (input : String) :
    (List.Forall₂ Marked ((f.withMarkers true).pieceDeeds input)
        ((f.withMarkers false).pieceDeeds input) ∧
      List.Forall₂ Marked ((f.withMarkers true).treeDeeds (Markup.parse input))
        ((f.withMarkers false).treeDeeds (Markup.parse input))) ∧
    (∀ on, ((f.withMarkers on).pieceDeeds input).map Deed.written =
          (f.withMarkers on).outputs input ∧
        Deed.text ((f.withMarkers on).treeDeeds (Markup.parse input)) =
          (f.withMarkers on).byTree input) ∧
    ∀ m, IsMarker m → m = "" ∨ ∃ body, NoAngles body.toList ∧
      ∀ rest, Piece.ofText (m ++ rest) = .comment body :: Piece.ofText rest := by
  refine ⟨⟨marked_pieceDeedsFrom hf (wellRead_ofText input) {}, marked_treeDeeds hf input⟩,
    fun on => ⟨map_written_pieceDeedsFrom _ {} _, join_treeDeeds _ _⟩, fun m hm => hm.read⟩

/-- Links with titles, and a tag that is left out. -/
def titledLinks : Filter where
  policy :=
    { elements := ⟨[("a", { name := "a", attributes := ["title"] }),
        ("font", { name := "font", removesTag := true })]⟩
      attributes := ⟨[("title", { name := "title" })]⟩ }

/-- Each of the three markers, one of them with a value that would end a comment with the `>` of its
tag. -/
theorem marked_withMarkers_titledLinks :
    let input := "<a title=t onclick=x--><font><i>"
    let marker := "<!-- Not Allowed Attribute Filtered ( onclick=\"x--\") -->"
    titledLinks.policy.ListenerFree ∧
      (titledLinks.withMarkers true).outputs input =
        [marker ++ "<a title=t>", "<!-- Removed Tag Filtered (font) -->",
          "<!-- Not Allowed Tag Filtered -->&lt;i&gt;"] ∧
      (titledLinks.withMarkers false).outputs input = ["<a title=t>", "", "&lt;i&gt;"] ∧
      List.Forall₂ Marked ((titledLinks.withMarkers true).pieceDeeds input)
        ((titledLinks.withMarkers false).pieceDeeds input) ∧
      List.Forall₂ Marked ((titledLinks.withMarkers true).treeDeeds (Markup.parse input))
        ((titledLinks.withMarkers false).treeDeeds (Markup.parse input)) ∧
      IsMarker marker ∧ ∃ body, ∀ rest,
        Piece.ofText (marker ++ rest) = .comment body :: Piece.ofText rest := by
  intro input marker
  have hf : titledLinks.policy.ListenerFree := by
    have helements : titledLinks.policy.elements.Every fun rule => rule.listeners = [] := by
      simp [RuleTable.Every, titledLinks]
    have hattributes : titledLinks.policy.attributes.Every fun rule => rule.listeners = [] := by
      simp [RuleTable.Every, titledLinks]
    exact ⟨fun _ _ hrule => helements.of_find? hrule, fun _ _ hrule => hattributes.of_find? hrule⟩
  have hmarker : IsMarker marker :=
    .attributes (show NoAngles " onclick=\"x--\"".toList from ⟨by decide, by decide⟩)
  obtain ⟨⟨hpieces, htree⟩, -, hread⟩ := marked_withMarkers hf input
  refine ⟨hf, by decide +kernel, by decide +kernel, hpieces, htree, hmarker, ?_⟩
  rcases hread marker hmarker with hempty | ⟨body, -, hbody⟩
  · exact absurd hempty (by decide)
  · exact ⟨body, hbody⟩

end Filter

end MarkupFilter
