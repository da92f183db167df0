import MarkupFilter.Filter.Rendering
import MarkupFilter.Markup.Building

/-!
# Filtering trees

The whole tree of the input is known before anything is written, so rules can ask for end tags and
listeners see subtrees. First the listeners see every element with what is below it, from the root
down; then the nodes are decided on and written in the order of the tree.

## Main definitions

* `Policy.prepare` — the tree after all subtree listeners have seen it.
* `Filter.node` — a node with what is below it, decided on and written.
* `Filter.tree` — the output for a tree, and the tree with what was decided.
* `Filter.byTree` — the filtered text.
-/

set_option autoImplicit false

namespace MarkupFilter

/-! ## Subtree listeners -/

/-- The node after the listeners of its rule have seen it and what is below it, and then those of
the nodes below, down to the given depth. Only elements have listeners. -/
def Policy.prepare (p : Policy) : Nat → Markup → Markup
  | depth + 1, .node (.element e) children =>
    let listeners := ((p.ruleFor? e).map ElementRule.listeners).getD []
    let (e, children) := ElementListener.applyAllToSubtree listeners e children
    .node (.element e) (children.map (p.prepare depth))
  | _, t => t

/-- The depth to which subtree listeners are called. It only stops listeners that would deepen a
tree for ever. -/
def Policy.listenerDepth : Nat := Nat.pow 2 32

namespace Filter

/-! ## Nodes -/

/-- What is known between two nodes: the open objects, and the text written so far. -/
structure Progress where
  guard : ObjectGuard := {}
  text : String := ""

/-- The progress after some more text is written. -/
def Progress.write (p : Progress) (text : String) : Progress :=
  { p with text := p.text ++ text }

/-- The end of an element, after everything below it. The end tag is written for an element that
was closed in its place. -/
def closeElement (f : Filter) (a : Verdict) (p : Progress) : Progress :=
  match a.element.ending, a.objectKey? with
  | .closed, some key =>
    let (params, guard) := p.guard.close key true
    { p with guard := guard }.write (f.renderEndTag a.element.name a.decision params)
  | .closed, none => p.write (f.renderEndTag a.element.name a.decision [])
  | .crossClosed, some key => { p with guard := (p.guard.close key false).2 }
  | _, _ => p

mutual

/-- A node that stands in the element `parent?`: the node with what was decided, and the progress
after it. Nodes below others than elements are not looked at. -/
def node (f : Filter) (parent? : Option String) (p : Progress) : Markup → Markup × Progress
  | .node (.text raw) cs => (.node (.text raw) cs, p.write (renderText raw))
  | .node (.stray raw (.endTag name)) cs =>
    (.node (.stray raw (.endTag name)) cs, p.write (f.renderStrayEndTag name))
  | .node (.stray raw .conditional) cs =>
    (.node (.stray raw .conditional) cs, p.write f.renderConditionalEnd)
  | .node (.comment body) cs => (.node (.comment body) cs, p.write (f.renderComment body))
  | .node .fragment cs => (.node .fragment cs, p)
  | .node (.element e) cs =>
    let a := f.judge p.guard e parent? e.isNeverClosed
    let p := { p with guard := a.guard }.write (f.renderStartTag a.element a.decision)
    let (cs, p) := f.nodes (some a.element.name) p cs
    (.node (.element a.element) cs, f.closeElement a p)

/-- A row of nodes that stand in the element `parent?`. -/
def nodes (f : Filter) (parent? : Option String) (p : Progress) :
    List Markup → List Markup × Progress
  | [] => ([], p)
  | t :: ts =>
    let (t, p) := f.node parent? p t
    let (ts, p) := f.nodes parent? p ts
    (t :: ts, p)

end

/-! ## Trees -/

/-- The output for the nodes below the root of a tree, and the tree with what the listeners did and
what was decided. -/
def tree (f : Filter) : Markup → Markup × String
  | .node a children =>
    let (children, p) := f.nodes none {} (children.map (f.policy.prepare Policy.listenerDepth))
    (.node a children, p.text)

/-- The filtered text of `input`. -/
def byTree (f : Filter) (input : String) : String :=
  (f.tree (Markup.parse input)).2

end Filter

/-- The text `input`, filtered by the baseline policy with the usual settings. -/
def sanitize (input : String) : String :=
  Filter.baseline.byTree input

end MarkupFilter
