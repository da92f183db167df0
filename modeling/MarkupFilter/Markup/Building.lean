import MarkupFilter.Markup.OpenElements
import MarkupFilter.Markup.Piece
import MarkupFilter.Markup.Tree

/-!
# Building trees

The nodes of a tree, in order of appearance, are the pieces of a text without the end tags that
close an element. An outline is the row of these nodes together with what became of each element:
how it ended, and how many nodes had come after it by then. An element contains these nodes, as far
as the element around it reaches; so an element that never gets an end tag contains nothing, and
tags that cross come apart without losing or reordering anything.

## Main definitions

* `Outlined` — a node's content and the number of nodes up to its end tag.
* `Outline` — the nodes so far and the elements that are open.
* `Outline.add` — one more piece.
* `Outline.forest` — the trees that a stretch of the nodes forms.
* `Markup.parse` — the tree of a text.
-/

set_option autoImplicit false

namespace MarkupFilter

/-! ## Outlines -/

/-- The content of a node, and the number of nodes after it that came before its end tag. -/
structure Outlined where
  content : Content
  extent : Nat := 0
  deriving DecidableEq, Repr

namespace Outlined

/-- The node with another ending for its element. -/
def withEnding (ending : Ending) (o : Outlined) : Outlined :=
  match o.content with
  | .element e => { o with content := .element { e with ending := ending } }
  | _ => o

end Outlined

/-- The nodes of a text so far, numbered in order from zero, and the numbers of the open
elements. -/
structure Outline where
  nodes : Array Outlined := #[]
  openElements : OpenElements Nat := {}

namespace Outline

/-- The outline with one more node. -/
def append (o : Outline) (c : Content) : Outline :=
  { o with nodes := o.nodes.push { content := c } }

/-- The outline in which the element `number` is overdue. -/
def delay (o : Outline) (number : Nat) : Outline :=
  { o with nodes := o.nodes.modify number (Outlined.withEnding .overdue) }

/-- The outline in which the element `number` has ended. All nodes after it are in its extent. -/
def finish (o : Outline) (number : Nat) (ending : Ending) : Outline :=
  let extent := o.nodes.size - (number + 1)
  { o with nodes := o.nodes.modify number fun n => { n.withEnding ending with extent := extent } }

/-- The outline after an end tag that has closed an element; the elements it has passed over are
overdue now. -/
def close (o : Outline) (c : Closure Nat) : Outline :=
  let o := { o with openElements := c.remaining }
  (c.skipped.foldl delay o).finish c.item (if c.overdue then .crossClosed else .closed)

/-- The outline with one more piece. -/
def add (o : Outline) : Piece → Outline
  | .text raw => o.append (.text raw)
  | .comment body => o.append (.comment body)
  | .conditionalStart e => o.append (.element e)
  | .conditionalEnd raw => o.append (.stray raw .conditional)
  | .startTag e =>
    let number := o.nodes.size
    let openElements :=
      if e.selfClosed then o.openElements else o.openElements.push e.name number
    { o.append (.element e) with openElements := openElements }
  | .endTag name raw =>
    match o.openElements.close? name with
    | some c => o.close c
    | none => o.append (.stray raw (.endTag name))

/-- The outline of a row of pieces. -/
def ofPieces (pieces : List Piece) : Outline :=
  pieces.foldl add {}

/-! ## Forests -/

/-- The trees that the `count` nodes from the number `start` on form: the first node contains as
many of the others as its extent says, and what is left forms the trees after it. -/
def forest (nodes : Array Outlined) (start : Nat) : (count : Nat) → List Markup
  | 0 => []
  | count + 1 =>
    match nodes[start]? with
    | none => []
    | some o =>
      let inside := min o.extent count
      .node o.content (forest nodes (start + 1) inside) ::
        forest nodes (start + 1 + inside) (count - inside)
termination_by count => count

/-- The tree of an outline. -/
def markup (o : Outline) : Markup :=
  .node .fragment (forest o.nodes 0 o.nodes.size)

end Outline

/-- The tree of `input`. Nothing is refused: what is no markup is text. -/
def Markup.parse (input : String) : Markup :=
  (Outline.ofPieces (Piece.ofDocument input)).markup

end MarkupFilter
