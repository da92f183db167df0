import MarkupFilter.Filter.ByPiece

/-!
# What reaches a sink

A filter that writes to a sink has in mind what it will ask of it: to take each output that is not
empty, in order, and then to flush. It asks this until something is refused. Whatever the sink is
and whatever it does when it refuses, it has been asked for a first part of this and for no more.

## Main definitions

* `SinkCall`, `Sink.answer` — what can be asked of a sink, and what it answers.
* `Sink.Accepts` — the sink does all that it is asked for.
* `Sink.recording` — the sink, which keeps a record of what it is asked for.
* `Filter.sinkCalls` — what a filter asks for if nothing is refused.

## Main results

* `Sink.perform_cases` — either all calls are accepted, or they stop at the first that is refused.
* `Filter.writeTo_eq_perform` — writing to a sink is asking for one thing after the other.
* `Filter.writeTo_prefix` — a sink that fails gets a first part of the output.
-/

set_option autoImplicit false

namespace MarkupFilter

/-! ## Calls -/

/-- What a sink can be asked for. -/
inductive SinkCall where
  | write (text : String)
  | flush
  deriving DecidableEq, Repr

namespace Sink

variable {σ : Type} (sink : Sink σ)

/-- The state of a sink after a call, and the reason if it refuses. -/
def answer (s : σ) : SinkCall → σ × Option SinkError
  | .write text =>
    match sink.write s text with
    | .ok s => (s, none)
    | .error e => (sink.writeFailed s text, some e)
  | .flush =>
    match sink.flush s with
    | .ok s => (s, none)
    | .error e => (sink.flushFailed s, some e)

/-- Makes calls until one is refused. -/
def perform : σ → List SinkCall → σ × Option SinkError
  | s, [] => (s, none)
  | s, call :: calls =>
    match sink.answer s call with
    | (s, none) => perform s calls
    | (s, some e) => (s, some e)

/-- The sink accepts the calls one after the other. -/
inductive Accepts : σ → List SinkCall → σ → Prop where
  | nil (s : σ) : Accepts s [] s
  | cons {s s' s'' : σ} {call : SinkCall} {calls : List SinkCall}
    (hcall : sink.answer s call = (s', none)) (h : Accepts s' calls s'') :
    Accepts s (call :: calls) s''

/-- The sink, which also records every call that is made, whether it is accepted or not. -/
def recording : Sink (σ × List SinkCall) where
  write s text := (sink.write s.1 text).map fun t => (t, s.2 ++ [.write text])
  flush s := (sink.flush s.1).map fun t => (t, s.2 ++ [.flush])
  writeFailed s text := (sink.writeFailed s.1 text, s.2 ++ [.write text])
  flushFailed s := (sink.flushFailed s.1, s.2 ++ [.flush])

variable {sink}

theorem accepts_append {s s'' : σ} {xs ys : List SinkCall} :
    sink.Accepts s (xs ++ ys) s'' ↔ ∃ s', sink.Accepts s xs s' ∧ sink.Accepts s' ys s'' := by
  constructor
  · intro h
    induction xs generalizing s with
    | nil => exact ⟨s, .nil s, h⟩
    | cons call xs ih =>
      rcases h with _ | ⟨hcall, h⟩
      obtain ⟨s', hxs, hys⟩ := ih h
      exact ⟨s', .cons hcall hxs, hys⟩
  · rintro ⟨s', hxs, hys⟩
    induction hxs with
    | nil => exact hys
    | cons hcall _ ih => exact .cons hcall (ih hys)

/-- A sink accepts a flush if it does not fail. -/
theorem accepts_flush {s s' : σ} : sink.Accepts s [.flush] s' ↔ sink.flush s = .ok s' := by
  have hanswer : sink.answer s .flush = (s', none) ↔ sink.flush s = .ok s' := by
    rw [answer]
    cases sink.flush s <;> simp
  rw [← hanswer]
  constructor
  · rintro (_ | ⟨hcall, ⟨⟩⟩)
    exact hcall
  · exact fun hcall => .cons hcall (.nil s')

/-- A recording sink answers as the sink does. -/
theorem answer_recording (s : σ) (record : List SinkCall) (call : SinkCall) :
    sink.recording.answer (s, record) call =
      (((sink.answer s call).1, record ++ [call]), (sink.answer s call).2) := by
  cases call with
  | write text =>
    simp only [answer, recording]
    cases sink.write s text <;> rfl
  | flush =>
    simp only [answer, recording]
    cases sink.flush s <;> rfl

theorem perform_of_accepts {s s' : σ} {calls : List SinkCall} (h : sink.Accepts s calls s') :
    sink.perform s calls = (s', none) := by
  induction h with
  | nil => rfl
  | cons hcall _ ih =>
    rw [perform, hcall]
    exact ih

variable (sink) in
/-- **Calls stop at the first that is refused.** Either the sink accepts all of them, or it accepts
those before one that it refuses, and none is made after that one. The induction is on the calls. -/
theorem perform_cases (s : σ) (record calls : List SinkCall) :
    (∃ s', sink.Accepts s calls s' ∧ sink.perform s calls = (s', none) ∧
      sink.recording.perform (s, record) calls = ((s', record ++ calls), none)) ∨
    ∃ before call after s' s'' e, calls = before ++ call :: after ∧ sink.Accepts s before s' ∧
      sink.answer s' call = (s'', some e) ∧ sink.perform s calls = (s'', some e) ∧
      sink.recording.perform (s, record) calls =
        ((s'', record ++ (before ++ [call])), some e) := by
  induction calls generalizing s record with
  | nil => exact .inl ⟨s, .nil s, rfl, by rw [perform, List.append_nil]⟩
  | cons call calls ih =>
    rw [perform, perform, answer_recording]
    rcases hanswer : sink.answer s call with ⟨t, _ | e⟩
    · dsimp only
      rcases ih t (record ++ [call]) with ⟨s', haccepts, hperform, hrecord⟩ |
        ⟨before, refused, after, s', s'', e, rfl, haccepts, hrefused, hperform, hrecord⟩
      · refine .inl ⟨s', .cons hanswer haccepts, hperform, ?_⟩
        rw [hrecord, List.append_assoc, List.singleton_append]
      · refine .inr ⟨call :: before, refused, after, s', s'', e, rfl, .cons hanswer haccepts,
          hrefused, hperform, ?_⟩
        rw [hrecord, List.append_assoc, List.singleton_append, List.cons_append]
    · exact .inr ⟨[], call, calls, s, t, e, rfl, .nil s, hanswer, rfl, by simp⟩

/-- Nothing is refused exactly if all calls are accepted. -/
theorem perform_eq_none_iff (s : σ) (calls : List SinkCall) :
    (sink.perform s calls).2 = none ↔ ∃ s', sink.Accepts s calls s' := by
  constructor
  · intro h
    rcases perform_cases sink s [] calls with ⟨s', haccepts, -⟩ |
      ⟨_, _, _, _, _, _, _, _, _, hperform, _⟩
    · exact ⟨s', haccepts⟩
    · rw [hperform] at h
      cases h
  · rintro ⟨s', haccepts⟩
    rw [perform_of_accepts haccepts]

/-- Writing texts and then going on is making the calls for them first. -/
theorem perform_writes (s : σ) (texts : List String) (calls : List SinkCall) :
    sink.perform s (texts.map .write ++ calls) =
      match sink.writeAll s texts with
      | (s, none) => sink.perform s calls
      | (s, some e) => (s, some e) := by
  induction texts generalizing s with
  | nil => rfl
  | cons text texts ih =>
    rw [List.map_cons, List.cons_append, perform, writeAll, answer]
    cases sink.write s text with
    | ok t => exact ih t
    | error e => rfl

end Sink

/-! ## Filters that write to a sink -/

namespace Filter

/-- The outputs for the pieces of `input` that are not empty, in order. -/
def chunks (f : Filter) (input : String) : List String :=
  (f.outputs input).filter fun out => !out.isEmpty

/-- What is asked of a sink for `input` if it refuses nothing. -/
def sinkCalls (f : Filter) (input : String) : List SinkCall :=
  (f.chunks input).map .write ++ [.flush]

/-- Outputs that are empty are not missed. -/
theorem join_chunks (f : Filter) (input : String) :
    String.join (f.chunks input) = f.byPiece input := by
  have hall : ∀ texts : List String,
      String.join (texts.filter fun text => !text.isEmpty) = String.join texts := by
    intro texts
    induction texts with
    | nil => rfl
    | cons text texts ih =>
      by_cases hempty : text.isEmpty = true
      · rw [List.filter_cons_of_neg (by simp [hempty]), ih, String.join_cons,
          String.isEmpty_iff.1 hempty, String.empty_append]
      · rw [List.filter_cons_of_pos (by simpa using hempty), String.join_cons, String.join_cons, ih]
  exact hall (f.outputs input)

/-- Writing to a sink is asking it for one thing after the other, until it refuses. -/
theorem writeTo_eq_perform {σ : Type} (f : Filter) (sink : Sink σ) (s : σ) (input : String) :
    f.writeTo sink s input = sink.perform s (f.sinkCalls input) := by
  rw [sinkCalls, Sink.perform_writes, writeTo, chunks]
  rcases sink.writeAll s ((f.outputs input).filter fun out => !out.isEmpty) with ⟨t, _ | e⟩
  · dsimp only
    rw [Sink.perform, Sink.answer]
    cases sink.flush t <;> rfl
  · rfl

/-- **A sink that fails gets a first part of the output.** What is to be asked of the sink is to take
each output that is not empty, in order, and then, once, to flush; these outputs make up the filtered
text. Let `made` be the calls that are made, as a sink records them. If there is no error, these are
all calls, and the sink accepted them. Otherwise they are the calls up to the first one that the sink
refused, be it a text or the flush; nothing was asked of it after that, its state is the one in which
it refused, and the error is its own. There is no error exactly if the sink accepts all texts and
the flush after them. -/
theorem writeTo_prefix {σ : Type} (f : Filter) (sink : Sink σ) (s : σ) (input : String) :
    (f.sinkCalls input = (f.chunks input).map .write ++ [.flush] ∧
      f.chunks input = (f.outputs input).filter (fun out => !out.isEmpty) ∧
      String.join (f.chunks input) = f.byPiece input) ∧
    (∃ made, f.writeTo sink.recording (s, []) input =
        (((f.writeTo sink s input).1, made), (f.writeTo sink s input).2) ∧
      ((made = f.sinkCalls input ∧
        ∃ s', sink.Accepts s made s' ∧ f.writeTo sink s input = (s', none)) ∨
      ∃ accepted refused after s' s'' e, f.sinkCalls input = accepted ++ refused :: after ∧
        made = accepted ++ [refused] ∧ sink.Accepts s accepted s' ∧
        sink.answer s' refused = (s'', some e) ∧ f.writeTo sink s input = (s'', some e))) ∧
    ((f.writeTo sink s input).2 = none ↔
      ∃ s' s'', sink.Accepts s ((f.chunks input).map .write) s' ∧ sink.flush s' = .ok s'') := by
  refine ⟨⟨rfl, rfl, f.join_chunks input⟩, ?_, ?_⟩
  · rw [writeTo_eq_perform, writeTo_eq_perform]
    rcases Sink.perform_cases sink s [] (f.sinkCalls input) with
      ⟨s', haccepts, hperform, hrecord⟩ |
      ⟨accepted, refused, after, s', s'', e, hcalls, haccepts, hrefused, hperform, hrecord⟩
    · exact ⟨f.sinkCalls input, by rw [hrecord, hperform, List.nil_append],
        .inl ⟨rfl, s', haccepts, hperform⟩⟩
    · exact ⟨accepted ++ [refused], by rw [hrecord, hperform, List.nil_append],
        .inr ⟨accepted, refused, after, s', s'', e, hcalls, rfl, haccepts, hrefused, hperform⟩⟩
  · rw [writeTo_eq_perform, Sink.perform_eq_none_iff, sinkCalls]
    simp only [Sink.accepts_append, Sink.accepts_flush]
    exact ⟨fun ⟨s'', s', hwrites, hflush⟩ => ⟨s', s'', hwrites, hflush⟩,
      fun ⟨s', s'', hwrites, hflush⟩ => ⟨s'', s', hwrites, hflush⟩⟩

end Filter

end MarkupFilter
