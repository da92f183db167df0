import MarkupFilter.Text.AsciiCase

/-!
# Attributes

The attributes of a start tag keep the order in which they are written. A name occurs once,
whatever the case of its letters: of attributes that repeat a name, the first counts, as it does
in a browser.

## Main definitions

* `Attribute` — a name, perhaps a value, its quotes, and whether it may be written.
* `Attributes` — the attributes of one element.
* `Attributes.push`, `Attributes.set`, `Attributes.remove`, `Attributes.update` — their changes.

## Main results

* `Attributes.keys_push`, `Attributes.keys_update` — what the changes do to the names.
-/

set_option autoImplicit false

namespace MarkupFilter

/-! ## One attribute -/

/-- An attribute as written: without a value, or with one in quotes or bare. -/
structure Attribute where
  name : String
  value : Option String := none
  quote : Option Char := none
  /-- A disabled attribute is not written to the tag. -/
  enabled : Bool := true
  /-- The name up to letter case, by which attributes are told apart. -/
  key : String := AsciiCase.lower name
  key_eq : key = AsciiCase.lower name := by rfl
  deriving DecidableEq, Repr

namespace Attribute

/-- An attribute with its value in double quotes. -/
def ofValue (name value : String) : Attribute :=
  { name := name, value := some value, quote := some '"' }

/-- The attribute with another value; it gets double quotes if it had none. -/
def setValue (a : Attribute) (value : String) : Attribute :=
  { a with value := some value, quote := some (a.quote.getD '"') }

/-- The attribute, enabled or not. -/
def setEnabled (a : Attribute) (enabled : Bool) : Attribute :=
  { a with enabled := enabled }

@[simp] theorem key_setValue (a : Attribute) (value : String) : (a.setValue value).key = a.key :=
  rfl

@[simp] theorem key_setEnabled (a : Attribute) (enabled : Bool) :
    (a.setEnabled enabled).key = a.key :=
  rfl

end Attribute

/-! ## The attributes of an element -/

/-- Attributes in order, of which no two have the same name up to letter case. -/
structure Attributes where
  toList : List Attribute := []
  deriving DecidableEq, Repr

namespace Attributes

/-- The names up to letter case, in order. -/
def keys (as : Attributes) : List String :=
  as.toList.map Attribute.key

/-- The attribute of a name. -/
def get? (as : Attributes) (name : String) : Option Attribute :=
  let key := AsciiCase.lower name
  as.toList.find? fun a => a.key == key

/-- Whether there is an attribute of a name. -/
def contains (as : Attributes) (name : String) : Bool :=
  (as.get? name).isSome

/-- The value of the attribute of a name, if it has one. -/
def value? (as : Attributes) (name : String) : Option String :=
  (as.get? name).bind Attribute.value

/-- The attributes with one more at the end, unless its name is there already. -/
def push (as : Attributes) (a : Attribute) : Attributes :=
  if as.contains a.name then as else ⟨as.toList ++ [a]⟩

/-- The attributes with `f` applied to every one of them. -/
def map (f : Attribute → Attribute) (as : Attributes) : Attributes :=
  ⟨as.toList.map f⟩

/-- The attributes with `f` applied to the one of a name. -/
def update (as : Attributes) (name : String) (f : Attribute → Attribute) : Attributes :=
  let key := AsciiCase.lower name
  as.map fun a => if a.key = key then f a else a

/-- The attributes with a value given to a name: the attribute keeps its place, and a new one comes
last. -/
def set (as : Attributes) (name value : String) : Attributes :=
  if as.contains name then as.update name (·.setValue value)
  else as.push (.ofValue name value)

/-- The attributes without the one of a name. -/
def remove (as : Attributes) (name : String) : Attributes :=
  let key := AsciiCase.lower name
  ⟨as.toList.filter fun a => a.key != key⟩

/-- The number of attributes. -/
def size (as : Attributes) : Nat :=
  as.toList.length

/-- The attributes that may be written to the tag. -/
def enabled (as : Attributes) : List Attribute :=
  as.toList.filter (·.enabled)

/-- The attributes that may not. -/
def disabled (as : Attributes) : List Attribute :=
  as.toList.filter fun a => !a.enabled

/-- A name is there when its lowered form is among the keys. -/
theorem contains_iff (as : Attributes) (name : String) :
    as.contains name = true ↔ AsciiCase.lower name ∈ as.keys := by
  simp only [contains, get?, keys, List.find?_isSome, List.mem_map, beq_iff_eq]

/-- Adding an attribute adds its key at the end, if it is new. -/
theorem keys_push (as : Attributes) (a : Attribute) :
    (as.push a).keys = if a.key ∈ as.keys then as.keys else as.keys ++ [a.key] := by
  have h : as.contains a.name = true ↔ a.key ∈ as.keys := a.key_eq ▸ contains_iff as a.name
  unfold push
  by_cases hk : a.key ∈ as.keys
  · rw [if_pos (h.2 hk), if_pos hk]
  · rw [if_neg (fun hc => hk (h.1 hc)), if_neg hk]
    simp [keys]

/-- Changing an attribute without renaming it leaves the keys as they are. -/
theorem keys_update (as : Attributes) (name : String) (f : Attribute → Attribute)
    (hf : ∀ a, (f a).key = a.key) : (as.update name f).keys = as.keys := by
  simp only [update, map, keys, List.map_map]
  refine List.map_congr_left fun a _ => ?_
  simp only [Function.comp_apply]
  split
  · exact hf a
  · rfl

end Attributes

end MarkupFilter
