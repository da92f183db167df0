import MarkupFilter.Text.AsciiCase

/-!
# Open elements

End tags are matched with start tags by a stack that need not be emptied from the top: an end tag
closes the innermost open element of its name, and the elements opened after that one stay open,
overdue from then on. An element that is closed while overdue crosses another one.

Elements are numbered as they are opened, so that of two open elements the inner one has the higher
number. They are kept by name, because end tags ask for names; and those that are not overdue are
kept in one row besides, of which an end tag always takes away a first part.

## Main definitions

* `OpenElements` — the elements that are open.
* `OpenElements.close?` — what an end tag closes.

## Main results

* `OpenElements.skipped_append_inTime` — an end tag takes a first part of the elements in time away.
-/

set_option autoImplicit false

namespace MarkupFilter

/-- An open element: what is known about it, and its number. -/
structure OpenElement (α : Type) where
  number : Nat
  item : α
  deriving DecidableEq, Repr

/-- The elements that have a start tag but no end tag so far. -/
structure OpenElements (α : Type) where
  /-- The number of the next element, which is also how many have been opened. -/
  nextNumber : Nat := 0
  /-- The open elements by name in small letters, the innermost of each name first. -/
  byName : List (String × List (OpenElement α)) := []
  /-- The open elements that no end tag has passed over, the innermost first. -/
  inTime : List (OpenElement α) := []
  deriving DecidableEq, Repr

/-- What an end tag does: it closes `item`, which was `overdue` or not; `skipped` are the elements
that have become overdue by it, innermost first, and `remaining` are still open. -/
structure Closure (α : Type) where
  item : α
  overdue : Bool
  skipped : List α
  remaining : OpenElements α

namespace OpenElements

variable {α : Type}

/-! ## Names -/

/-- One more element of a name, inside of the others. -/
def insert (key : String) (e : OpenElement α) :
    List (String × List (OpenElement α)) → List (String × List (OpenElement α))
  | [] => [(key, [e])]
  | (name, es) :: rest =>
    if name = key then (name, e :: es) :: rest else (name, es) :: insert key e rest

/-- The innermost element of a name, and the elements without it. A name without elements is left
out. -/
def take? (key : String) : List (String × List (OpenElement α)) →
    Option (OpenElement α × List (String × List (OpenElement α)))
  | [] => none
  | (name, es) :: rest =>
    if name = key then
      match es with
      | [] => none
      | [e] => some (e, rest)
      | e :: es => some (e, (name, es) :: rest)
    else (take? key rest).map fun (e, rest) => (e, (name, es) :: rest)

/-- The inner one of two elements. -/
def inner? : Option (OpenElement α) → Option (OpenElement α) → Option (OpenElement α)
  | some a, some b => if a.number < b.number then some b else some a
  | some a, none => some a
  | none, b? => b?

/-! ## Operations -/

/-- The elements with one more, the innermost. -/
def push (o : OpenElements α) (name : String) (item : α) : OpenElements α :=
  let e : OpenElement α := ⟨o.nextNumber, item⟩
  ⟨o.nextNumber + 1, insert (AsciiCase.lower name) e o.byName, e :: o.inTime⟩

/-- The innermost open element. -/
def current? (o : OpenElements α) : Option α :=
  (o.byName.foldl (fun best entry => inner? best entry.2.head?) none).map OpenElement.item

/-- The number of open elements. -/
def size (o : OpenElements α) : Nat :=
  o.byName.foldl (fun n entry => n + entry.2.length) 0

/-- The elements in time that are inside of the element `number`, innermost first. -/
def skippedBy (o : OpenElements α) (number : Nat) : List (OpenElement α) :=
  o.inTime.takeWhile fun e => number < e.number

/-- The elements in time that are not inside of the element `number`. -/
def inTimeAfter (o : OpenElements α) (number : Nat) : List (OpenElement α) :=
  o.inTime.dropWhile fun e => number < e.number

/-- What an end tag of the given name does; none if no open element has the name, up to letter
case. -/
def close? (o : OpenElements α) (name : String) : Option (Closure α) :=
  (take? (AsciiCase.lower name) o.byName).map fun (e, byName) =>
    let skipped := (o.skippedBy e.number).map OpenElement.item
    match o.inTimeAfter e.number with
    | [] => ⟨e.item, true, skipped, ⟨o.nextNumber, byName, []⟩⟩
    | f :: outer =>
      if f.number = e.number then ⟨e.item, false, skipped, ⟨o.nextNumber, byName, outer⟩⟩
      else ⟨e.item, true, skipped, ⟨o.nextNumber, byName, f :: outer⟩⟩

theorem skipped_append_inTime (o : OpenElements α) (number : Nat) :
    o.skippedBy number ++ o.inTimeAfter number = o.inTime :=
  List.takeWhile_append_dropWhile

end OpenElements

end MarkupFilter
