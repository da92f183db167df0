import MarkupFilter.Filter.Rendering
import MarkupFilter.Markup.OpenElements
import MarkupFilter.Markup.Piece

/-!
# Filtering piece by piece

Every piece of the input is decided on and written as soon as it is read. Nothing is known of what
follows, so missing end tags have no effect and listeners do not see subtrees; the innermost open
element counts as the one around a tag.

## Main definitions

* `PieceState` — the open elements and objects between two pieces.
* `Filter.step` — one piece.
* `Filter.outputs` — what is written for each piece.
* `Filter.byPiece` — the filtered text.
* `Filter.writeTo` — the filtered text written to a sink.
-/

set_option autoImplicit false

namespace MarkupFilter

/-- An element that waits for its end tag. -/
structure OpenedElement where
  name : String
  decision : Decision
  /-- The key of the frame of an object. -/
  objectKey? : Option Nat
  deriving DecidableEq, Repr

/-- What is known between two pieces. -/
structure PieceState where
  openElements : OpenElements OpenedElement := {}
  guard : ObjectGuard := {}

namespace Filter

/-! ## One piece -/

/-- A start tag. Its element waits for its end tag, unless it closes itself. -/
def stepStartTag (f : Filter) (st : PieceState) (e : Element) : String × PieceState :=
  let parent? := st.openElements.current?.map OpenedElement.name
  let a := f.judge st.guard e parent? false
  let openElements :=
    if a.element.selfClosed then st.openElements
    else st.openElements.push a.element.name ⟨a.element.name, a.decision, a.objectKey?⟩
  (f.renderStartTag a.element a.decision, ⟨openElements, a.guard⟩)

/-- The guard after the end of an element, and the settings to be written before its end tag. Only
an end tag in its place gets settings. -/
def endObject (g : ObjectGuard) (key? : Option Nat) (inPlace : Bool) :
    List (String × String) × ObjectGuard :=
  match key? with
  | some key => g.close key inPlace
  | none => ([], g)

/-- An end tag. It is written for the element that it closes in its place; the end tag of an
overdue element is left out. -/
def stepEndTag (f : Filter) (st : PieceState) (name : String) : String × PieceState :=
  match st.openElements.close? name with
  | none => (f.renderStrayEndTag name, st)
  | some c =>
    let (params, guard) := endObject st.guard c.item.objectKey? (!c.overdue)
    let st := ⟨c.remaining, guard⟩
    if c.overdue then ("", st) else (f.renderEndTag c.item.name c.item.decision params, st)

/-- What is written for a piece, and the state after it. -/
def step (f : Filter) (st : PieceState) : Piece → String × PieceState
  | .text raw => (renderText raw, st)
  | .comment body => (f.renderComment body, st)
  | .conditionalStart e =>
    let (decision, e) := f.decide e none false
    (f.renderStartTag e decision, st)
  | .conditionalEnd _ => (f.renderConditionalEnd, st)
  | .startTag e => f.stepStartTag st e
  | .endTag name _ => f.stepEndTag st name

/-! ## All pieces -/

/-- What is written for each of the pieces that follow a state. -/
def outputsFrom (f : Filter) : PieceState → List Piece → List String
  | _, [] => []
  | st, p :: pieces =>
    let (out, st) := f.step st p
    out :: outputsFrom f st pieces

/-- What is written for each piece of `input`. -/
def outputs (f : Filter) (input : String) : List String :=
  f.outputsFrom {} (Piece.ofText input)

/-- The filtered text of `input`. -/
def byPiece (f : Filter) (input : String) : String :=
  String.join (f.outputs input)

end Filter

/-! ## Sinks -/

/-- Why a sink did not take a text. -/
inductive SinkError where
  /-- The sink gives the reason. -/
  | refused (reason : String)
  /-- The sink took no byte of a text that is not empty. -/
  | tookNothing
  deriving DecidableEq, Repr

/-- The reason of an error in words. -/
def SinkError.describe : SinkError → String
  | .refused reason => reason
  | .tookNothing => "failed to write whole buffer"

/-- How an error is reported. -/
def SinkError.message (e : SinkError) : String :=
  "Sink write failed: " ++ e.describe

/-- Something that texts can be written to, with a state of its own. -/
structure Sink (σ : Type) where
  /-- The state after a text is taken, or the reason why it is refused. -/
  write : σ → String → Except SinkError σ
  flush : σ → Except SinkError σ
  /-- The state after a text is refused, of which a part may have been taken. -/
  writeFailed : σ → String → σ := fun s _ => s
  /-- The state after a flush that failed. -/
  flushFailed : σ → σ := fun s => s

/-- Writes texts to a sink until one is refused. The result is the state after that, and the
error. -/
def Sink.writeAll {σ : Type} (sink : Sink σ) : σ → List String → σ × Option SinkError
  | s, [] => (s, none)
  | s, text :: texts =>
    match sink.write s text with
    | .ok s => sink.writeAll s texts
    | .error e => (sink.writeFailed s text, some e)

/-- Writes the filtered text of `input` to a sink, one piece at a time, and flushes the sink after
the last. A piece for which nothing is written does not reach the sink, and nothing reaches it
after an error. -/
def Filter.writeTo {σ : Type} (f : Filter) (sink : Sink σ) (s : σ) (input : String) :
    σ × Option SinkError :=
  match sink.writeAll s ((f.outputs input).filter fun out => !out.isEmpty) with
  | (s, some e) => (s, some e)
  | (s, none) =>
    match sink.flush s with
    | .ok s => (s, none)
    | .error e => (sink.flushFailed s, some e)

end MarkupFilter
