import MarkupFilter.Filter.ByTree

/-!
# Filtering a tree in place

Instead of calling all listeners first, a filter can go through a tree and change it on the way. At
an element, its listeners are called; they see the whole tree as it is by then, with what was decided
on the nodes before. Then the element is decided on and its start is written, the nodes that are right
below it now are gone through, and its end is written. A log tells where the tour has been.

A listener may deepen a tree for ever, so a tour is given a depth that it does not go below.

## Main definitions

* `TreeListener` — a listener that sees an element in the whole tree.
* `Policy.treeListeners` — the listeners of a policy as such.
* `Stop`, `TourStep`, `Tour` — a tour, with the log of its steps.
* `Filter.tour` — the tour through a tree.
-/

set_option autoImplicit false

namespace MarkupFilter

/-! ## Listeners in a tree -/

/-- A listener that sees an element at its address in the whole tree. -/
structure TreeListener where
  onTree : Markup → List Nat → Markup

/-- The listener, which sees what is below an element, called at the address of the element. -/
def ElementListener.inTree (l : ElementListener) : TreeListener where
  onTree m address :=
    match m.node? address with
    | some (.node (.element e) children) =>
      let (e, children) := l.onSubtree e children
      m.put address (.node (.element e) children)
    | _ => m

/-- The listeners of the rule of an element. -/
def Policy.treeListeners (p : Policy) (e : Element) : List TreeListener :=
  (((p.ruleFor? e).map ElementRule.listeners).getD []).map ElementListener.inTree

/-! ## Tours -/

/-- A stop of a tour: it comes to a node, or it has been through all that is below an element. -/
structure Stop where
  address : List Nat
  ends : Bool := false
  deriving DecidableEq, Repr

/-- What is done at a stop: what is decided on an element, what is written, and what the guard knows
then. -/
structure TourStep where
  stop : Stop
  decided? : Option (Decision × Element) := none
  written : String
  guard : ObjectGuard

/-- A tour so far: the tree as it is now, the open objects with the text written, and the log. -/
structure Tour where
  markup : Markup
  progress : Filter.Progress := {}
  steps : List TourStep := []

namespace Tour

/-- The tour after one more step. -/
def record (s : Tour) (step : TourStep) : Tour :=
  { s with
    progress := ⟨step.guard, s.progress.text ++ step.written⟩
    steps := s.steps ++ [step] }

/-- The tour after a node that is not an element. -/
def say (s : Tour) (address : List Nat) (text : String) : Tour :=
  s.record { stop := { address := address }, written := text, guard := s.progress.guard }

/-- The tour after the listeners of the element at an address. -/
def listen (s : Tour) (listeners : List TreeListener) (address : List Nat) : Tour :=
  { s with markup := listeners.foldl (fun m l => l.onTree m address) s.markup }

end Tour

namespace Filter

variable (f : Filter)

/-- The start of the element `e` at an address: it is decided on, and the verdict is left in the
tree. -/
def startAt (s : Tour) (address : List Nat) (e : Element) : Verdict × Tour :=
  let parent? := (s.markup.parentElement? address).map Element.name
  let v := f.judge s.progress.guard e parent? e.isNeverClosed
  let markup := (s.markup.updateElement? address fun _ => v.element).getD s.markup
  (v, { s with markup := markup }.record
    { stop := { address := address }
      decided? := some (v.decision, v.element)
      written := f.renderStartTag v.element v.decision
      guard := v.guard })

/-- The end of the element at an address. Whether it was closed is read from the tree, as it is
now. -/
def endAt (s : Tour) (address : List Nat) (v : Verdict) : Tour :=
  match s.markup.element? address with
  | none => s
  | some e =>
    let ended := f.closeElement { v with element := { v.element with ending := e.ending } }
      ⟨s.progress.guard, ""⟩
    s.record { stop := ⟨address, true⟩, written := ended.text, guard := ended.guard }

/-- The tour through the node at an address and those below it, down to the given depth; none if
that is not deep enough. -/
def tourNode (listeners : Element → List TreeListener) : Nat → Tour → List Nat → Option Tour
  | 0, _, _ => none
  | depth + 1, s, address =>
    match s.markup.content? address with
    | some (.text raw) => some (s.say address (renderText raw))
    | some (.stray _ (.endTag name)) => some (s.say address (f.renderStrayEndTag name))
    | some (.stray _ .conditional) => some (s.say address f.renderConditionalEnd)
    | some (.comment body) => some (s.say address (f.renderComment body))
    | some .fragment => some s
    | none => some s
    | some (.element e) =>
      let s := s.listen (listeners e) address
      match s.markup.element? address with
      | none => some s
      | some e =>
        let (v, s) := f.startAt s address e
        ((s.markup.childAddresses address).foldlM (tourNode listeners depth) s).map fun s =>
          f.endAt s address v

/-- The tour through the nodes below the root of a tree. -/
def tour (listeners : Element → List TreeListener) (depth : Nat) (m : Markup) : Option Tour :=
  (m.childAddresses []).foldlM (f.tourNode listeners depth) { markup := m }

end Filter

end MarkupFilter
