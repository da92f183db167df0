import MarkupFilter.Filter.ByPiece
import MarkupFilter.Proofs.Filter.Spelling

/-!
# Reading written pieces again

Pieces written one after the other are read again as they are, but texts that follow one another
are read as one. This is no difference to a filter: it writes a text character by character.

## Main definitions

* `Piece.Rereads` — the piece is read again as a piece of its kind.
* `Piece.joinFrom` — the pieces with texts that follow one another joined.

## Main results

* `Reader.pieces_write` — what is read again of written pieces.
* `Filter.outputFrom_joinFrom` — joining texts does not change what is written.
* `Filter.byPiece_write` — filtering written pieces is filtering the pieces.
-/

set_option autoImplicit false

namespace MarkupFilter

open Reader

namespace Piece

/-! ## Joined texts -/

/-- The piece is in the usual spelling and no comment that is read as a conditional one. -/
def Rereads : Piece → Prop
  | .comment body => NoAngles body.toList ∧ ¬ IsConditionBody body.toList ∧
      ¬ IsClosingBody body.toList
  | p => p.WellWritten

theorem Rereads.wellWritten {p : Piece} (h : p.Rereads) : p.WellWritten := by
  cases p with
  | comment body => exact h.1
  | _ => exact h

/-- The piece of a text, if there is any. -/
def ofRun (text : String) : List Piece :=
  if text = "" then [] else [.text text]

/-- The pieces after the text `run`, where texts that follow one another are one. -/
def joinFrom (run : String) : List Piece → List Piece
  | [] => ofRun run
  | .text raw :: ps => joinFrom (run ++ raw) ps
  | .comment body :: ps => ofRun run ++ .comment body :: joinFrom "" ps
  | .startTag e :: ps => ofRun run ++ .startTag e :: joinFrom "" ps
  | .endTag name raw :: ps => ofRun run ++ .endTag name raw :: joinFrom "" ps
  | .conditionalStart e :: ps => ofRun run ++ .conditionalStart e :: joinFrom "" ps
  | .conditionalEnd raw :: ps => ofRun run ++ .conditionalEnd raw :: joinFrom "" ps

/-- The piece is a text. -/
def isText : Piece → Bool
  | .text _ => true
  | _ => false

theorem joinFrom_cons {p : Piece} (hp : p.isText = false) (run : String) (ps : List Piece) :
    joinFrom run (p :: ps) = ofRun run ++ p :: joinFrom "" ps := by
  cases p with
  | text raw => cases hp
  | _ => rfl

/-- Nothing joins across a piece that is no text. -/
theorem joinFrom_append_cons {p : Piece} (hp : p.isText = false) (run : String)
    (ps qs : List Piece) :
    joinFrom run (ps ++ p :: qs) = joinFrom run ps ++ p :: joinFrom "" qs := by
  induction ps generalizing run with
  | nil => exact joinFrom_cons hp run qs
  | cons q ps ih =>
    by_cases hq : q.isText = true
    · cases q with
      | text raw => exact ih (run ++ raw)
      | _ => cases hq
    · rw [Bool.not_eq_true] at hq
      rw [List.cons_append, joinFrom_cons hq, joinFrom_cons hq, ih, List.append_assoc,
        List.cons_append]

end Piece

/-! ## Reading again -/

namespace Reader

/-- What is not a text starts with an angle bracket. -/
theorem exists_write_eq_cons {p : Piece} (hp : p.WellWritten) (htext : p.isText = false) :
    ∃ cs, p.write = '<' :: cs := by
  cases p with
  | text raw => cases htext
  | comment body => exact ⟨_, rfl⟩
  | startTag e => exact ⟨_, rfl⟩
  | endTag name raw => exact ⟨_, hp.2⟩
  | conditionalStart e =>
    obtain ⟨name, condition, rfl, -, hname⟩ := hp
    exact ⟨_, hname⟩
  | conditionalEnd raw =>
    obtain rfl : raw = "<![endif]-->" := hp
    exact ⟨_, rfl⟩

/-- A piece that is no text is read again, whatever pieces follow it. -/
theorem piece?_write {p : Piece} (hp : p.Rereads) (htext : p.isText = false) {ps : List Piece}
    (hps : ∀ q ∈ ps, q.Rereads) :
    piece? (p.write ++ ps.flatMap Piece.write) = some (p, ps.flatMap Piece.write) := by
  cases p with
  | text raw => cases htext
  | comment body =>
    obtain ⟨q, hread, rfl | ⟨-, hbody⟩ | ⟨-, hbody⟩⟩ :=
      piece?_comment hp.1 (ps.flatMap Piece.write)
    · exact hread
    · exact absurd hbody hp.2.1
    · exact absurd hbody hp.2.2
  | startTag e => exact (piece?_startTag hp _).1
  | endTag name raw => exact piece?_endTag hp _
  | conditionalStart e =>
    exact piece?_conditionalStart hp (endsCondition_write fun q hq => (hps q hq).wellWritten)
  | conditionalEnd raw =>
    obtain rfl : raw = "<![endif]-->" := hp
    exact piece?_conditionalEnd _

theorem noAngles_empty : NoAngles "".toList :=
  ⟨by simp, by simp⟩

/-- A text before something that starts with an angle bracket. -/
theorem pieces_run {run : String} (hrun : NoAngles run.toList) {rest : List Char}
    (hrest : rest = [] ∨ ∃ cs, rest = '<' :: cs) :
    pieces (run.toList ++ rest) = Piece.ofRun run ++ pieces rest := by
  unfold Piece.ofRun
  split
  · next h =>
    subst h
    rfl
  · next h =>
    have hne : run.toList ≠ [] := by simpa using h
    have hstops : rest.takeWhile (· != '<') = [] ∧ rest.dropWhile (· != '<') = rest := by
      rcases hrest with rfl | ⟨cs, rfl⟩
      · exact ⟨rfl, rfl⟩
      · exact dropWhile_of_stops (stops_cons (by simp) cs)
    rw [pieces, units_text hne hrun.1, hstops.1, hstops.2, List.append_nil, String.ofList_toList]
    rfl

/-- What is read again of pieces written after a text. -/
theorem pieces_run_write {ps : List Piece} (h : ∀ p ∈ ps, p.Rereads) {run : String}
    (hrun : NoAngles run.toList) :
    pieces (run.toList ++ ps.flatMap Piece.write) = Piece.joinFrom run ps := by
  induction ps generalizing run with
  | nil =>
    rw [List.flatMap_nil, pieces_run hrun (.inl rfl), pieces_nil, List.append_nil]
    rfl
  | cons p ps ih =>
    have hp := h p (List.mem_cons_self ..)
    have hps : ∀ q ∈ ps, q.Rereads := fun q hq => h q (List.mem_cons_of_mem _ hq)
    rw [List.flatMap_cons]
    by_cases htext : p.isText = true
    · cases p with
      | text raw =>
        have hraw : NoAngles raw.toList := hp
        have hjoined : NoAngles (run ++ raw).toList := by
          rw [String.toList_append]
          exact hrun.append hraw
        have hread := ih hps hjoined
        rwa [String.toList_append, List.append_assoc] at hread
      | _ => cases htext
    · rw [Bool.not_eq_true] at htext
      obtain ⟨cs, hcs⟩ := exists_write_eq_cons hp.wellWritten htext
      have hrest := ih hps noAngles_empty
      rw [String.toList_empty, List.nil_append] at hrest
      rw [pieces_run hrun (.inr ⟨cs ++ ps.flatMap Piece.write, by rw [hcs]; rfl⟩),
        pieces_of_piece? (piece?_write hp htext hps), Piece.joinFrom_cons htext, ← hrest]

/-- **What is read again of written pieces**: the pieces, with texts that follow one another
joined. -/
theorem pieces_write {ps : List Piece} (h : ∀ p ∈ ps, p.Rereads) :
    pieces (ps.flatMap Piece.write) = Piece.joinFrom "" ps := by
  have hread := pieces_run_write h noAngles_empty
  rwa [String.toList_empty, List.nil_append] at hread

end Reader

/-! ## Filtering again -/

namespace Filter

variable {f : Filter}

@[simp] theorem renderText_empty : renderText "" = "" := by
  simp [renderText, CharacterReference.escapeAngles]

theorem renderText_append (s t : String) : renderText (s ++ t) = renderText s ++ renderText t := by
  rw [renderText, renderText, renderText, CharacterReference.escapeAngles,
    CharacterReference.escapeAngles, CharacterReference.escapeAngles, String.toList_append,
    List.flatMap_append, String.ofList_append]

theorem renderText_of_noAngles {text : String} (h : NoAngles text.toList) :
    renderText text = text :=
  escapeAngles_of_noAngles h

/-- What is written for the pieces that follow a state. -/
def outputFrom (f : Filter) (st : PieceState) (ps : List Piece) : String :=
  String.join (f.outputsFrom st ps)

@[simp] theorem outputFrom_nil (st : PieceState) : f.outputFrom st [] = "" := rfl

theorem outputFrom_cons (st : PieceState) (p : Piece) (ps : List Piece) :
    f.outputFrom st (p :: ps) = (f.step st p).1 ++ f.outputFrom (f.step st p).2 ps := by
  rw [outputFrom, outputsFrom, String.join_cons]
  rfl

/-- The state after some pieces. -/
def stateAfter (f : Filter) (st : PieceState) (ps : List Piece) : PieceState :=
  ps.foldl (fun st p => (f.step st p).2) st

theorem outputFrom_append (st : PieceState) (ps qs : List Piece) :
    f.outputFrom st (ps ++ qs) = f.outputFrom st ps ++ f.outputFrom (f.stateAfter st ps) qs := by
  induction ps generalizing st with
  | nil => simp [stateAfter]
  | cons p ps ih =>
    rw [List.cons_append, outputFrom_cons, outputFrom_cons, ih, String.append_assoc]
    rfl

theorem stateAfter_append (st : PieceState) (ps qs : List Piece) :
    f.stateAfter st (ps ++ qs) = f.stateAfter (f.stateAfter st ps) qs :=
  List.foldl_append

/-- The piece of a text leaves the state as it is. -/
theorem outputFrom_ofRun (st : PieceState) (run : String) (ps : List Piece) :
    f.outputFrom st (Piece.ofRun run ++ ps) = renderText run ++ f.outputFrom st ps := by
  unfold Piece.ofRun
  split
  · next h =>
    subst h
    rw [List.nil_append, renderText_empty, String.empty_append]
  · exact outputFrom_cons st (.text run) ps

/-- **Joining texts does not change what is written.** -/
theorem outputFrom_joinFrom (st : PieceState) (run : String) (ps : List Piece) :
    f.outputFrom st (Piece.joinFrom run ps) = renderText run ++ f.outputFrom st ps := by
  induction ps generalizing st run with
  | nil =>
    have := outputFrom_ofRun (f := f) st run []
    rwa [List.append_nil] at this
  | cons p ps ih =>
    by_cases htext : p.isText = true
    · cases p with
      | text raw =>
        rw [Piece.joinFrom, ih, renderText_append, outputFrom_cons, String.append_assoc]
        rfl
      | _ => cases htext
    · rw [Bool.not_eq_true] at htext
      rw [Piece.joinFrom_cons htext, outputFrom_ofRun, outputFrom_cons, outputFrom_cons, ih,
        renderText_empty, String.empty_append]

/-- **Filtering written pieces is filtering the pieces.** -/
theorem byPiece_write {ps : List Piece} (h : ∀ p ∈ ps, p.Rereads) {text : String}
    (htext : text.toList = ps.flatMap Piece.write) : f.byPiece text = f.outputFrom {} ps := by
  have hread := Reader.pieces_write h
  rw [← htext] at hread
  have hout := outputFrom_joinFrom (f := f) {} "" ps
  rw [byPiece, outputs, Piece.ofText_eq_pieces, hread]
  rwa [renderText_empty, String.empty_append] at hout

end Filter

end MarkupFilter
