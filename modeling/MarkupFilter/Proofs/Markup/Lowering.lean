import MarkupFilter.Markup.Building
import MarkupFilter.Plugin.ObjectGuard
import MarkupFilter.Proofs.Text.LetterCase

/-!
# Markup with lowered names

Everything that is looked up by name is looked up whatever the case of its letters. So to lower all
names first, of tags and of attributes, and then to build attributes, rows of open elements and
outlines gives what is built from the names as written, with the names lowered afterwards.

## Main definitions

* `Attribute.lower`, `Element.lower`, `Piece.lower`, `Outline.lower` — the names in small letters.

## Main results

* `Attributes.lower_push`, `Attributes.lower_set`, `Attributes.lower_force` — changes of attributes.
* `Outline.ofPieces_map_lower` — building an outline.
-/

set_option autoImplicit false

namespace MarkupFilter

/-! ## Attributes -/

/-- The attribute with its name in small letters. -/
def Attribute.lower (a : Attribute) : Attribute :=
  { name := AsciiCase.lower a.name, value := a.value, quote := a.quote, enabled := a.enabled }

namespace Attribute

@[simp] theorem name_lower (a : Attribute) : a.lower.name = AsciiCase.lower a.name := rfl

@[simp] theorem value_lower (a : Attribute) : a.lower.value = a.value := rfl

@[simp] theorem quote_lower (a : Attribute) : a.lower.quote = a.quote := rfl

@[simp] theorem enabled_lower (a : Attribute) : a.lower.enabled = a.enabled := rfl

@[simp] theorem key_lower (a : Attribute) : a.lower.key = a.key :=
  a.lower.key_eq.trans ((AsciiCase.lower_lower _).trans a.key_eq.symm)

/-- Attributes with the same lowered name and otherwise alike have the same lowered form. -/
theorem lower_congr {a b : Attribute} (hname : AsciiCase.lower a.name = AsciiCase.lower b.name)
    (hvalue : a.value = b.value) (hquote : a.quote = b.quote) (henabled : a.enabled = b.enabled) :
    a.lower = b.lower := by
  simp only [lower, hname, hvalue, hquote, henabled]

@[simp] theorem lower_lower (a : Attribute) : a.lower.lower = a.lower :=
  lower_congr (AsciiCase.lower_lower _) rfl rfl rfl

theorem lower_setEnabled (a : Attribute) (enabled : Bool) :
    (a.setEnabled enabled).lower = a.lower.setEnabled enabled := by
  simp only [lower, setEnabled, AsciiCase.lower_lower]

theorem lower_setValue (a : Attribute) (value : String) :
    (a.setValue value).lower = a.lower.setValue value := by
  simp only [lower, setValue, AsciiCase.lower_lower]

end Attribute

namespace Attributes

/-- The attributes with their names in small letters. -/
def lower (as : Attributes) : Attributes :=
  as.map Attribute.lower

@[simp] theorem lower_lower (as : Attributes) : as.lower.lower = as.lower := by
  simp [lower, map]

@[simp] theorem keys_lower (as : Attributes) : as.lower.keys = as.keys := by
  simp [keys, lower, map]

@[simp] theorem contains_lower (as : Attributes) (name : String) :
    as.lower.contains name = as.contains name := by
  rw [Bool.eq_iff_iff, contains_iff, contains_iff, keys_lower]

/-- A name that is looked up may be lowered. -/
@[simp] theorem contains_name_lower (as : Attributes) (name : String) :
    as.contains (AsciiCase.lower name) = as.contains name := by
  rw [contains, contains, get?, get?, AsciiCase.lower_lower]

theorem get?_lower (as : Attributes) (name : String) :
    as.lower.get? name = (as.get? name).map Attribute.lower := by
  have hkey : ((fun a : Attribute => a.key == AsciiCase.lower name) ∘ Attribute.lower) =
      fun a => a.key == AsciiCase.lower name :=
    funext fun a => congrArg (· == AsciiCase.lower name) a.key_lower
  simp only [get?, lower, map, List.find?_map, hkey]

@[simp] theorem value?_lower (as : Attributes) (name : String) :
    as.lower.value? name = as.value? name := by
  rw [value?, value?, get?_lower]
  cases as.get? name <;> rfl

theorem lower_push (as : Attributes) (a : Attribute) : (as.push a).lower = as.lower.push a.lower := by
  simp only [push, contains_lower, Attribute.name_lower, contains_name_lower]
  split
  · rfl
  · simp [lower, map]

theorem lower_map {g h : Attribute → Attribute} (hg : ∀ a, (g a).lower = h a.lower)
    (as : Attributes) : (as.map g).lower = as.lower.map h := by
  simp only [lower, map, List.map_map, Attributes.mk.injEq]
  exact List.map_congr_left fun a _ => hg a

theorem lower_update {g : Attribute → Attribute} (hg : ∀ a, (g a).lower = g a.lower)
    (as : Attributes) (name : String) :
    (as.update name g).lower = as.lower.update (AsciiCase.lower name) g := by
  simp only [update, AsciiCase.lower_lower]
  refine lower_map (fun a => ?_) as
  rw [Attribute.key_lower]
  split
  · exact hg a
  · rfl

theorem lower_set (as : Attributes) (name value : String) :
    (as.set name value).lower = as.lower.set (AsciiCase.lower name) value := by
  simp only [set, contains_lower, contains_name_lower]
  split
  · exact lower_update (fun a => a.lower_setValue value) as name
  · exact lower_push as _

theorem lower_force (as : Attributes) (name value : String) :
    (ObjectGuard.force name value as).lower =
      ObjectGuard.force (AsciiCase.lower name) value as.lower := by
  rw [ObjectGuard.force, ObjectGuard.force, lower_update fun a => a.lower_setEnabled true, lower_set]

theorem enabled_lower (as : Attributes) : as.lower.enabled = as.enabled.map Attribute.lower := by
  simp only [enabled, lower, map, List.filter_map]
  rfl

theorem disabled_lower (as : Attributes) : as.lower.disabled = as.disabled.map Attribute.lower := by
  simp only [disabled, lower, map, List.filter_map]
  rfl

end Attributes

/-! ## Elements and pieces -/

/-- The element with its name and those of its attributes in small letters. -/
def Element.lower (e : Element) : Element :=
  { e with name := AsciiCase.lower e.name, attributes := e.attributes.lower }

/-- The piece with all names in small letters. -/
def Piece.lower : Piece → Piece
  | .startTag e => .startTag e.lower
  | .endTag name raw => .endTag (AsciiCase.lower name) (AsciiCase.lower raw)
  | .conditionalStart e => .conditionalStart e.lower
  | p => p

/-- The content with all names in small letters. -/
def Content.lower : Content → Content
  | .element e => .element e.lower
  | .stray raw (.endTag name) => .stray (AsciiCase.lower raw) (.endTag (AsciiCase.lower name))
  | c => c

namespace Element

@[simp] theorem name_lower (e : Element) : e.lower.name = AsciiCase.lower e.name := rfl

@[simp] theorem attributes_lower (e : Element) : e.lower.attributes = e.attributes.lower := rfl

@[simp] theorem condition_lower (e : Element) : e.lower.condition = e.condition := rfl

@[simp] theorem selfClosed_lower (e : Element) : e.lower.selfClosed = e.selfClosed := rfl

@[simp] theorem ending_lower (e : Element) : e.lower.ending = e.ending := rfl

@[simp] theorem isConditional_lower (e : Element) : e.lower.isConditional = e.isConditional := rfl

@[simp] theorem isNeverClosed_lower (e : Element) : e.lower.isNeverClosed = e.isNeverClosed := rfl

@[simp] theorem isNamed_lower (e : Element) (name : String) :
    e.lower.isNamed name = e.isNamed name := by
  simp only [isNamed, AsciiCase.same, name_lower, AsciiCase.lower_lower]

@[simp] theorem lower_lower (e : Element) : e.lower.lower = e.lower := by
  simp [lower]

theorem lower_setEnabled (e : Element) (enabled : Bool) :
    (e.setEnabled enabled).lower = e.lower.setEnabled enabled := rfl

end Element

/-! ## Outlines -/

/-- The node with all names in small letters. -/
def Outlined.lower (o : Outlined) : Outlined :=
  { o with content := o.content.lower }

namespace Outlined

@[simp] theorem content_lower (o : Outlined) : o.lower.content = o.content.lower := rfl

@[simp] theorem extent_lower (o : Outlined) : o.lower.extent = o.extent := rfl

theorem lower_withEnding (ending : Ending) (o : Outlined) :
    (o.withEnding ending).lower = o.lower.withEnding ending := by
  obtain ⟨content, extent⟩ := o
  match content with
  | .element e => rfl
  | .stray raw (.endTag name) => rfl
  | .stray raw .conditional => rfl
  | .fragment => rfl
  | .text raw => rfl
  | .comment body => rfl

end Outlined

/-- The name by which an element is opened may be lowered. -/
theorem OpenElements.push_lower {α : Type} (o : OpenElements α) (name : String) (item : α) :
    o.push (AsciiCase.lower name) item = o.push name item := by
  rw [push, push, AsciiCase.lower_lower]

/-- The name of an end tag may be lowered. -/
theorem OpenElements.close?_lower {α : Type} (o : OpenElements α) (name : String) :
    o.close? (AsciiCase.lower name) = o.close? name := by
  rw [close?, close?, AsciiCase.lower_lower]

namespace Outline

/-- The outline with all names in small letters. -/
def lower (o : Outline) : Outline :=
  { o with nodes := o.nodes.map Outlined.lower }

theorem lower_append (o : Outline) (c : Content) :
    (o.append c).lower = o.lower.append c.lower := by
  simp [lower, append, Outlined.lower]

theorem lower_modify {g h : Outlined → Outlined} (hg : ∀ o, (g o).lower = h o.lower) (o : Outline)
    (number : Nat) :
    lower { o with nodes := o.nodes.modify number g } =
      { o.lower with nodes := o.lower.nodes.modify number h } := by
  have hnodes : (o.nodes.modify number g).map Outlined.lower =
      (o.nodes.map Outlined.lower).modify number h := by
    apply Array.ext_getElem?
    intro i
    rw [Array.getElem?_map, Array.getElem?_modify, Array.getElem?_modify, Array.getElem?_map]
    split
    · rw [Option.map_map, Option.map_map]
      exact congrArg (Option.map · _) (funext hg)
    · rfl
  simp only [lower, hnodes]

theorem lower_delay (o : Outline) (number : Nat) :
    (o.delay number).lower = o.lower.delay number :=
  lower_modify (Outlined.lower_withEnding .overdue) o number

theorem lower_finish (o : Outline) (number : Nat) (ending : Ending) :
    (o.finish number ending).lower = o.lower.finish number ending := by
  have hsize : o.lower.nodes.size = o.nodes.size := Array.size_map
  simp only [finish, hsize]
  refine lower_modify (fun n => ?_) o number
  rw [← Outlined.lower_withEnding]
  rfl

theorem lower_delays (o : Outline) (numbers : List Nat) :
    (numbers.foldl delay o).lower = numbers.foldl delay o.lower := by
  induction numbers generalizing o with
  | nil => rfl
  | cons number numbers ih => rw [List.foldl_cons, List.foldl_cons, ih, lower_delay]

theorem lower_close (o : Outline) (c : Closure Nat) : (o.close c).lower = o.lower.close c := by
  simp only [close, lower_finish, lower_delays]
  rfl

/-- One more piece is added alike, whether names are lowered before or afterwards. -/
theorem add_lower (o : Outline) (p : Piece) : o.lower.add p.lower = (o.add p).lower := by
  match p with
  | .text raw => exact (lower_append o (.text raw)).symm
  | .comment body => exact (lower_append o (.comment body)).symm
  | .conditionalStart e => exact (lower_append o (.element e)).symm
  | .conditionalEnd raw => exact (lower_append o (.stray raw .conditional)).symm
  | .startTag e =>
    have hsize : o.lower.nodes.size = o.nodes.size := Array.size_map
    have happend := lower_append o (.element e)
    simp only [Piece.lower, add, Element.selfClosed_lower, Element.name_lower,
      OpenElements.push_lower, hsize]
    simp only [lower, append, Array.map_push]
    rfl
  | .endTag name raw =>
    simp only [Piece.lower, add, OpenElements.close?_lower]
    rw [show o.lower.openElements = o.openElements from rfl]
    cases o.openElements.close? name with
    | some c => exact (lower_close o c).symm
    | none => exact (lower_append o (.stray raw (.endTag name))).symm

/-- **To lower all names and then build the outline is to build it and then lower all names.** -/
theorem ofPieces_map_lower (pieces : List Piece) :
    ofPieces (pieces.map Piece.lower) = (ofPieces pieces).lower := by
  have h : ∀ o : Outline, (pieces.map Piece.lower).foldl add o.lower =
      (pieces.foldl add o).lower := by
    induction pieces with
    | nil => exact fun o => rfl
    | cons p pieces ih =>
      intro o
      rw [List.map_cons, List.foldl_cons, List.foldl_cons, add_lower, ih]
  have hempty : ({} : Outline).lower = {} := by simp [lower]
  rw [ofPieces, ofPieces, ← h, hempty]

end Outline

end MarkupFilter
