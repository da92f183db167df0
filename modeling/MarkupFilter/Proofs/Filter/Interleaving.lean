import MarkupFilter.Filter.ByPiece
import MarkupFilter.Proofs.Markup.OpenStack

/-!
# Elements that are left open

When a filtered text is filtered again, more elements may be open than the first time: those of
which the end tag was left out because it came too late, and the parameters that were added to
objects. They lie between the others, and an end tag meets one of them only if it was left open
inside of the element that the end tag closed the first time.

## Main definitions

* `OpenElements.numberOf?` — the number of the element that an end tag closes.
* `LeftOpen` — a start tag of the filtered text that has no end tag there.
* `Filter.leavesOpen`, `Filter.FindsAgain` — what a piece leaves open, and when it meets none of it.
* `Interleaved` — the open elements of the second run: those of the first, and some left open.

## Main results

* `Interleaved.leave` — an end tag that is left out.
* `Interleaved.close` — an end tag that is written closes the same element.
-/

set_option autoImplicit false

namespace MarkupFilter

open OpenElements (Represents)

/-! ## Numbers of open elements -/

namespace OpenElements

variable {α : Type} {o : OpenElements α}

/-- The number of the element that an end tag of the given name closes. -/
def numberOf? (o : OpenElements α) (name : String) : Option Nat :=
  (take? (AsciiCase.lower name) o.byName).map fun taken => taken.1.number

/-- An end tag closes the first element of its name on the list. -/
theorem Represents.numberOf?_eq {before after : List (OpenEntry α)} {x : OpenEntry α}
    (h : Represents o (before ++ x :: after)) (hbefore : ∀ y ∈ before, y.key ≠ x.key)
    {name : String} (hname : x.key = AsciiCase.lower name) : o.numberOf? name = some x.number := by
  obtain ⟨byName, htake, -⟩ := take?_eq_some h.tidy (h.row_eq_cons hbefore)
  rw [numberOf?, ← hname, htake]
  rfl

theorem Represents.numberOf?_eq_none {es : List (OpenEntry α)} (h : Represents o es)
    {name : String} (hname : ∀ y ∈ es, y.key ≠ AsciiCase.lower name) :
    o.numberOf? name = none := by
  rw [numberOf?, take?_eq_none h.tidy (h.row_eq_nil hname)]
  rfl

end OpenElements

/-! ## Elements that are left open -/

/-- A start tag of the filtered text without an end tag there, of an element that the filter had
done with: the name in small letters, and how many elements had been opened up to it. -/
structure LeftOpen where
  key : String
  opened : Nat
  deriving DecidableEq, Repr

namespace Filter

/-- What is left open by the piece: an element of which the end tag comes too late, or the
parameters that are added to an object. -/
def leavesOpen (st : PieceState) : Piece → List LeftOpen
  | .endTag name _ =>
    match st.openElements.close? name with
    | none => []
    | some c =>
      if c.overdue then
        (st.openElements.numberOf? name).toList.map fun number =>
          ⟨AsciiCase.lower name, number + 1⟩
      else (endObject st.guard c.item.objectKey? true).1.map fun _ =>
        ⟨"param", st.openElements.nextNumber⟩
  | _ => []

/-- An end tag that is written closes an element that was opened after all those of its name that
were left open. -/
def FindsAgain (st : PieceState) (left : List LeftOpen) : Piece → Prop
  | .endTag name _ => (st.openElements.close? name).any Closure.overdue = true ∨
      ∀ l ∈ left, l.key = AsciiCase.lower name →
        (st.openElements.numberOf? name).any (fun number => (l.opened ≤ number : Bool)) = true
  | _ => True

instance (st : PieceState) (left : List LeftOpen) : (p : Piece) → Decidable (FindsAgain st left p)
  | .endTag _ _ => inferInstanceAs (Decidable (_ ∨ _))
  | .text _ | .comment _ | .startTag _ | .conditionalStart _ | .conditionalEnd _ =>
    inferInstanceAs (Decidable True)

end Filter

/-! ## Two lists of open elements -/

/-- The open elements of the second run are those of the first, the innermost first, with some more
between them that were left open. What is overdue in the second run is overdue in the first. -/
inductive Interleaved (left : List LeftOpen) :
    List (OpenEntry OpenedElement) → List (OpenEntry OpenedElement) → Prop where
  | nil : Interleaved left [] []
  | kept {x x' : OpenEntry OpenedElement} {es es' : List (OpenEntry OpenedElement)}
    (hkey : x'.key = x.key) (hitem : x'.item = x.item)
    (hoverdue : x'.overdue = true → x.overdue = true) (h : Interleaved left es es') :
    Interleaved left (x :: es) (x' :: es')
  | more {x' : OpenEntry OpenedElement} {es es' : List (OpenEntry OpenedElement)} {l : LeftOpen}
    (hl : l ∈ left) (hkey : l.key = x'.key) (hinner : ∀ x ∈ es, x.number < l.opened)
    (h : Interleaved left es es') : Interleaved left es (x' :: es')

namespace Interleaved

variable {left : List LeftOpen} {es es' before after : List (OpenEntry OpenedElement)}
  {x : OpenEntry OpenedElement}

theorem mono {left' : List LeftOpen} (h : Interleaved left es es')
    (hleft : ∀ l ∈ left, l ∈ left') : Interleaved left' es es' := by
  induction h with
  | nil => exact .nil
  | kept hkey hitem hoverdue _ ih => exact .kept hkey hitem hoverdue ih
  | more hl hkey hinner _ ih => exact .more (hleft _ hl) hkey hinner ih

/-- More elements that were left open, inside of all that are open. -/
theorem append {more : List (OpenEntry OpenedElement)} (h : Interleaved left es es')
    (hmore : ∀ y ∈ more, ∃ l ∈ left, l.key = y.key ∧ ∀ x ∈ es, x.number < l.opened) :
    Interleaved left es (more ++ es') := by
  induction more with
  | nil => exact h
  | cons y more ih =>
    obtain ⟨l, hl, hkey, hinner⟩ := hmore y (List.mem_cons_self ..)
    exact .more hl hkey hinner (ih fun z hz => hmore z (List.mem_cons_of_mem _ hz))

/-- An entry that is still open once those inside of `x` are overdue was open before. -/
theorem exists_of_mem_delay {y : OpenEntry OpenedElement}
    (hy : y ∈ before.map OpenEntry.delay ++ after) :
    ∃ z ∈ before ++ x :: after, z.number = y.number := by
  rcases List.mem_append.1 hy with hy | hy
  · obtain ⟨z, hz, rfl⟩ := List.mem_map.1 hy
    exact ⟨z, List.mem_append_left _ hz, rfl⟩
  · exact ⟨y, List.mem_append_right _ (List.mem_cons_of_mem _ hy), rfl⟩

/-- No open element has a name that none had before, unless one was left open. -/
theorem key_ne (h : Interleaved left es es') {key : String} (hes : ∀ y ∈ es, y.key ≠ key)
    (hleft : ∀ l ∈ left, l.key ≠ key) : ∀ y ∈ es', y.key ≠ key := by
  induction h with
  | nil => exact fun y hy => absurd hy List.not_mem_nil
  | @kept x x' es es' hkey _ _ _ ih =>
    intro y hy
    rcases List.mem_cons.1 hy with rfl | hy
    · rw [hkey]
      exact hes x (List.mem_cons_self ..)
    · exact ih (fun z hz => hes z (List.mem_cons_of_mem _ hz)) y hy
  | more hl hkey _ _ ih =>
    intro y hy
    rcases List.mem_cons.1 hy with rfl | hy
    · rw [← hkey]
      exact hleft _ hl
    · exact ih hes y hy

/-- An end tag that is left out in the first run leaves its element open in the second. -/
theorem leave (h : Interleaved left (before ++ x :: after) es')
    (hordered : ∀ y ∈ after, y.number < x.number) :
    Interleaved (⟨x.key, x.number + 1⟩ :: left) (before.map OpenEntry.delay ++ after) es' := by
  generalize hes : before ++ x :: after = es at h
  induction h generalizing before with
  | nil => simp at hes
  | @kept y y' es es' hkey hitem hoverdue h ih =>
    cases before with
    | nil =>
      obtain ⟨rfl, rfl⟩ := List.cons.inj hes
      refine .more (List.mem_cons_self ..) hkey.symm (fun z hz => ?_)
        (h.mono fun l hl => List.mem_cons_of_mem _ hl)
      exact Nat.lt_succ_of_lt (hordered z hz)
    | cons b before =>
      obtain ⟨rfl, htail⟩ := List.cons.inj hes
      exact .kept hkey hitem (fun _ => rfl) (ih htail)
  | @more y' es es' l hl hkey hinner h ih =>
    subst hes
    refine .more (List.mem_cons_of_mem _ hl) hkey (fun y hy => ?_) (ih rfl)
    obtain ⟨z, hz, hnumber⟩ := exists_of_mem_delay (x := x) hy
    rw [← hnumber]
    exact hinner z hz

/-- **An end tag finds its element again**, unless one of its name was left open inside. -/
theorem close (h : Interleaved left (before ++ x :: after) es')
    (hbefore : ∀ y ∈ before, y.key ≠ x.key)
    (hleft : ∀ l ∈ left, l.key = x.key → l.opened ≤ x.number) :
    ∃ before' x' after', es' = before' ++ x' :: after' ∧ (∀ y ∈ before', y.key ≠ x'.key) ∧
      x'.key = x.key ∧ x'.item = x.item ∧ (x'.overdue = true → x.overdue = true) ∧
      Interleaved left (before.map OpenEntry.delay ++ after)
        (before'.map OpenEntry.delay ++ after') := by
  generalize hes : before ++ x :: after = es at h
  induction h generalizing before with
  | nil => simp at hes
  | @kept y y' es es' hkey hitem hoverdue h ih =>
    cases before with
    | nil =>
      obtain ⟨rfl, rfl⟩ := List.cons.inj hes
      exact ⟨[], y', es', rfl, fun z hz => absurd hz List.not_mem_nil, hkey, hitem, hoverdue, h⟩
    | cons b before =>
      obtain ⟨rfl, htail⟩ := List.cons.inj hes
      obtain ⟨before', x', after', rfl, hbefore', hkey', hitem', hoverdue', h'⟩ :=
        ih (fun z hz => hbefore z (List.mem_cons_of_mem _ hz)) htail
      refine ⟨y' :: before', x', after', rfl, fun z hz => ?_, hkey', hitem', hoverdue',
        .kept hkey hitem (fun _ => rfl) h'⟩
      rcases List.mem_cons.1 hz with rfl | hz
      · rw [hkey, hkey']
        exact hbefore b (List.mem_cons_self ..)
      · exact hbefore' z hz
  | @more y' es es' l hl hkey hinner h ih =>
    obtain ⟨before', x', after', rfl, hbefore', hkey', hitem', hoverdue', h'⟩ := ih hbefore hes
    subst hes
    have hne : l.key ≠ x.key := fun hsame =>
      Nat.not_lt.2 (hleft l hl hsame) (hinner x (List.mem_append_right _ (List.mem_cons_self ..)))
    refine ⟨y' :: before', x', after', rfl, fun z hz => ?_, hkey', hitem', hoverdue',
      .more hl hkey (fun y hy => ?_) h'⟩
    · rcases List.mem_cons.1 hz with rfl | hz
      · rw [← hkey, hkey']
        exact hne
      · exact hbefore' z hz
    · obtain ⟨z, hz, hnumber⟩ := exists_of_mem_delay (x := x) hy
      rw [← hnumber]
      exact hinner z hz

end Interleaved

end MarkupFilter
