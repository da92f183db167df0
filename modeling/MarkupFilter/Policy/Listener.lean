import MarkupFilter.Markup.Tree

/-!
# Listeners

A rule can have listeners, which see the elements or attributes that it decides on and may change
them. A policy refers to listeners by name; a registry says which names there are.

## Main definitions

* `ElementListener`, `AttributeListener` — changes to elements, subtrees and attributes.
* `ListenerRegistry` — listeners by name.
* `ElementListener.linkRel` — the listener that protects links.
-/

set_option autoImplicit false

namespace MarkupFilter

/-! ## Listeners -/

/-- A listener on elements. `onElement` sees an element before its attributes are decided on.
`onSubtree` sees the element with the nodes below it, before `onElement`, and only where the whole
tree is known; it may change and add nodes below. -/
structure ElementListener where
  onElement : Element → Element := id
  onSubtree : Element → List Markup → Element × List Markup := fun e children => (e, children)

/-- A listener on attributes, which sees an attribute after it is decided on. -/
structure AttributeListener where
  onAttribute : Attribute → Attribute

namespace ElementListener

/-- The element after all `listeners` have seen it, one after the other. -/
def applyAll (listeners : List ElementListener) (e : Element) : Element :=
  listeners.foldl (fun e l => l.onElement e) e

/-- The element and the nodes below it after all `listeners` have seen them. -/
def applyAllToSubtree (listeners : List ElementListener) (e : Element) (children : List Markup) :
    Element × List Markup :=
  listeners.foldl (fun (e, children) l => l.onSubtree e children) (e, children)

/-- Cuts the tie between a link and the page that is opened by it: the attribute `rel` of an
element `a` is set to `noopener noreferrer`. -/
def linkRel : ElementListener where
  onElement e :=
    if e.isNamed "a" then e.mapAttributes (·.set "rel" "noopener noreferrer") else e

end ElementListener

/-- The attribute after all `listeners` have seen it, one after the other. -/
def AttributeListener.applyAll (listeners : List AttributeListener) (a : Attribute) : Attribute :=
  listeners.foldl (fun a l => l.onAttribute a) a

/-! ## Registries -/

/-- Listeners by name. -/
structure ListenerRegistry where
  elements : List (String × ElementListener) := []
  attributes : List (String × AttributeListener) := []

namespace ListenerRegistry

/-- The registry without listeners. -/
def empty : ListenerRegistry := {}

/-- The registry with one more element listener; it takes the place of one of the same name. -/
def addElement (r : ListenerRegistry) (name : String) (l : ElementListener) : ListenerRegistry :=
  { r with elements := (name, l) :: r.elements }

/-- The registry with one more attribute listener; it takes the place of one of the same name. -/
def addAttribute (r : ListenerRegistry) (name : String) (l : AttributeListener) :
    ListenerRegistry :=
  { r with attributes := (name, l) :: r.attributes }

/-- The element listener of a name. Case counts. -/
def element? (r : ListenerRegistry) (name : String) : Option ElementListener :=
  r.elements.lookup name

/-- The attribute listener of a name. Case counts. -/
def attribute? (r : ListenerRegistry) (name : String) : Option AttributeListener :=
  r.attributes.lookup name

/-- The listeners that come with the library: `link-rel`. -/
def builtin : ListenerRegistry :=
  empty.addElement "link-rel" .linkRel

end ListenerRegistry

end MarkupFilter
