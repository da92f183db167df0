import MarkupFilter.Markup.Element

/-!
# Markup trees

A tree has a label and a row of trees below it. Its nodes are addressed by the row of child numbers
that leads to them from the root; nodes are only ever added as last children, so addresses stay
valid.

## Main definitions

* `Tree` — trees with labels.
* `Tree.preorder` — all labels, each before those below it.
* `Tree.rows` — the same with the depths of the nodes.
* `Tree.node?`, `Tree.modify?`, `Tree.put` — the node at an address, its change and its replacement.
* `Markup` — trees of markup content.
* `Markup.textContent` — the text in a tree.

## Main results

* `Tree.preorder_node`, `Tree.preorderAll_cons` — the order of the labels.
-/

set_option autoImplicit false

namespace MarkupFilter

/-! ## Trees -/

/-- A label and a row of trees below it. -/
inductive Tree (α : Type) where
  | node (label : α) (children : List (Tree α))
  deriving Repr

namespace Tree

variable {α β : Type}

/-- The label of the root. -/
def label : Tree α → α
  | .node a _ => a

/-- The trees below the root. -/
def children : Tree α → List (Tree α)
  | .node _ cs => cs

/-- A tree with nothing below its root. -/
def leaf (a : α) : Tree α :=
  .node a []

mutual

/-- The tree with every label changed. -/
def map (f : α → β) : Tree α → Tree β
  | .node a cs => .node (f a) (mapAll f cs)

/-- Trees with every label changed. -/
def mapAll (f : α → β) : List (Tree α) → List (Tree β)
  | [] => []
  | t :: ts => map f t :: mapAll f ts

end

mutual

/-- The labels of a tree, the last one first, before the labels `seen`. -/
def visit (seen : List α) : Tree α → List α
  | .node a cs => visitAll (a :: seen) cs

/-- The labels of a row of trees, the last one first, before the labels `seen`. -/
def visitAll (seen : List α) : List (Tree α) → List α
  | [] => seen
  | t :: ts => visitAll (visit seen t) ts

end

/-- All labels, each before those below it. -/
def preorder (t : Tree α) : List α :=
  (visit [] t).reverse

/-- All labels of a row of trees. -/
def preorderAll (ts : List (Tree α)) : List α :=
  (visitAll [] ts).reverse

mutual

/-- What has been seen before a tree stays as it is. -/
theorem visit_eq (seen : List α) (t : Tree α) : visit seen t = visit [] t ++ seen := by
  match t with
  | .node a cs =>
    rw [visit, visit, visitAll_eq (a :: seen), visitAll_eq [a], List.append_assoc,
      List.singleton_append]

/-- What has been seen before a row of trees stays as it is. -/
theorem visitAll_eq (seen : List α) (ts : List (Tree α)) :
    visitAll seen ts = visitAll [] ts ++ seen := by
  match ts with
  | [] => simp [visitAll]
  | t :: ts =>
    rw [visitAll, visitAll, visit_eq seen, visitAll_eq (visit [] t ++ seen),
      visitAll_eq (visit [] t), List.append_assoc]

end

@[simp] theorem preorder_node (a : α) (cs : List (Tree α)) :
    preorder (.node a cs) = a :: preorderAll cs := by
  rw [preorder, preorderAll, visit, visitAll_eq]
  simp

@[simp] theorem preorderAll_nil : preorderAll ([] : List (Tree α)) = [] := rfl

@[simp] theorem preorderAll_cons (t : Tree α) (ts : List (Tree α)) :
    preorderAll (t :: ts) = preorder t ++ preorderAll ts := by
  rw [preorderAll, preorderAll, preorder, visitAll, visitAll_eq]
  simp

mutual

/-- The tree with the depth of every node beside its label, where the root has the given one. -/
def withDepths (depth : Nat) : Tree α → Tree (Nat × α)
  | .node a cs => .node (depth, a) (withDepthsAll (depth + 1) cs)

/-- The trees of a row with the depth of every node beside its label. -/
def withDepthsAll (depth : Nat) : List (Tree α) → List (Tree (Nat × α))
  | [] => []
  | t :: ts => withDepths depth t :: withDepthsAll depth ts

end

/-- All labels with their depths, each before those below it. -/
def rows (depth : Nat) (t : Tree α) : List (Nat × α) :=
  (t.withDepths depth).preorder

/-- The rows of a row of trees. -/
def rowsAll (depth : Nat) (ts : List (Tree α)) : List (Nat × α) :=
  preorderAll (withDepthsAll depth ts)

/-- The node at an address. -/
def node? : List Nat → Tree α → Option (Tree α)
  | [], t => some t
  | n :: address, .node _ cs => cs[n]?.bind (node? address)

/-- The tree with the node at an address replaced by its image. -/
def modify? (f : Tree α → Option (Tree α)) : List Nat → Tree α → Option (Tree α)
  | [], t => f t
  | n :: address, .node a cs =>
    match cs[n]? with
    | none => none
    | some c => (modify? f address c).map fun c => .node a (cs.set n c)

/-- The tree with the node at an address replaced, with all that is below it. Where there is no node,
the tree stays as it is. -/
def put : List Nat → Tree α → Tree α → Tree α
  | [], _, s => s
  | n :: address, .node a cs, s =>
    match cs[n]? with
    | none => .node a cs
    | some c => .node a (cs.set n (put address c s))

/-- The label of the node above an address; the root has none. -/
def parentLabel? (address : List Nat) (t : Tree α) : Option α :=
  if address.isEmpty then none else (t.node? address.dropLast).map label

/-- The tree with one more leaf as last child of the node at an address, and the address of the
leaf. -/
def append? (address : List Nat) (a : α) (t : Tree α) : Option (Tree α × List Nat) :=
  match t.node? address with
  | none => none
  | some parent =>
    (t.modify? (fun | .node b cs => some (.node b (cs ++ [leaf a]))) address).map fun t =>
      (t, address ++ [parent.children.length])

end Tree

/-! ## Markup -/

/-- A tree of markup content. -/
abbrev Markup : Type := Tree Content

namespace Markup

/-- The tree without content. -/
def empty : Markup :=
  .leaf .fragment

/-- The content of the node at an address. -/
def content? (m : Markup) (address : List Nat) : Option Content :=
  (m.node? address).map Tree.label

/-- The addresses of the nodes right below an address, in order. -/
def childAddresses (m : Markup) (address : List Nat) : List (List Nat) :=
  match m.node? address with
  | some t => (List.range t.children.length).map fun n => address ++ [n]
  | none => []

/-- The element at an address. -/
def element? (m : Markup) (address : List Nat) : Option Element :=
  (m.node? address).bind fun t => t.label.element?

/-- The element right above an address. -/
def parentElement? (m : Markup) (address : List Nat) : Option Element :=
  (m.parentLabel? address).bind Content.element?

/-- The tree with the element at an address changed; none if there is no element. -/
def updateElement? (m : Markup) (address : List Nat) (f : Element → Element) : Option Markup :=
  m.modify? (fun
    | .node (.element e) cs => some (.node (.element (f e)) cs)
    | _ => none) address

/-- The text of a node that is not a closing construct. -/
def ownText : Content → String
  | .text raw => raw
  | _ => ""

/-- The texts in a row of trees, put together. -/
def textContentAll (ts : List Markup) : String :=
  String.join ((Tree.preorderAll ts).map ownText)

/-- The texts in a tree, put together. -/
def textContent (m : Markup) : String :=
  String.join (m.preorder.map ownText)

end Markup

end MarkupFilter
