import MarkupFilter.Proofs.Grammar.TokenRows
import MarkupFilter.Proofs.Markup.Units

/-!
# The pieces of a text

A text read unit by unit and the same text read as one document give the same pieces, and these are
the pieces that the reader reads. Nothing is left unread.

## Main definitions

* `Markup.units` — the units of a text with what they stand for.
* `Markup.UnitRow` — the tokens of the units of a window.

## Main results

* `Markup.unitRow_unitTokens` — the tokens that are read are the units from start to end.
* `Markup.units_eq`, `Piece.ofText_eq_pieces` — reading unit by unit is what the reader does.
* `Piece.ofDocument_eq_ofText` — so is reading one document.
* `Markup.document_eq_units` — the units tile the text, and are what one document is made of.
-/

set_option autoImplicit false

namespace MarkupFilter

open Grammar

namespace Markup

/-! ## Matching as it is run -/

/-- The rules of markup start with rules that are declared later. -/
theorem leftRecursionFree_grammar : grammar.LeftRecursionFree :=
  leftRecursionFree_of_ranked ["document", "commentBody", "doubleQuoted", "singleQuoted"]
    grammar.names.reverse (by decide) (by decide)

/-- The depth to which references are followed is more than enough for a document. -/
theorem depthBound_eq (w : Window) : ∃ d, grammar.depthBound w = d + 6 := by
  refine ⟨grammar.depthBound w - 6, ?_⟩
  have hrules : grammar.rules.length = 20 := rfl
  have : 1 * 21 ≤ (w.size + 1) * 21 := Nat.mul_le_mul_right 21 (by omega)
  rw [depthBound, hrules]
  omega

/-! ## Kinds of units -/

/-- A choice of references matches one token. -/
theorem exists_of_matchesFirst?_references {call : String → Window → Option Match}
    (names : List String) (hsilent : ∀ name ∈ names, isSilent name = false) {w : Window} {m : Match}
    (h : Rule.matchesFirst? call (names.map (.reference .one)) w = some m) :
    ∃ name ∈ names, ∃ body, call name w = some body ∧
      m = ⟨body.length, [body.toToken name w]⟩ := by
  induction names with
  | nil => simp [Rule.matchesFirst?] at h
  | cons name names ih =>
    rw [List.map_cons, Rule.matchesFirst?, Rule.matches?, Quantifier.matches?] at h
    cases hbody : call name w with
    | none =>
      rw [hbody] at h
      obtain ⟨name', hname', h'⟩ := ih (fun n hn => hsilent n (List.mem_cons_of_mem _ hn)) h
      exact ⟨name', List.mem_cons_of_mem _ hname', h'⟩
    | some body =>
      rw [hbody, Option.map_some, Match.named, hsilent name List.mem_cons_self] at h
      cases h
      exact ⟨name, List.mem_cons_self, body, hbody, rfl⟩

/-- The kinds of units, in the order in which they are tried. -/
def unitKinds : List String :=
  ["ieHackStart", "ieHackEnd", "comment", "endTag", "startTag", "text"]

/-- A unit holds one token, which tells its kind. -/
theorem exists_kind_of_unit {w : Window} {m : Match} (hm : grammar.body? "unit" w = some m) :
    ∃ name ∈ unitKinds, ∃ body, grammar.body? name w = some body ∧
      m = ⟨body.length, [body.toToken name w]⟩ := by
  rw [body?_eq leftRecursionFree_grammar] at hm
  obtain ⟨rule, hrule, hm⟩ := Option.bind_eq_some_iff.1 hm
  cases hrule
  rw [unit, Rule.matches?, Quantifier.matches?] at hm
  exact exists_of_matchesFirst?_references unitKinds (by decide +kernel) hm

/-! ## Unit by unit -/

/-- The unit at the start of a window stands for the piece that the reader reads there. -/
theorem agree_body?_unit (w : Window) :
    Agree (StandsForUnit w) w (grammar.body? "unit" w) (Reader.piece? w.text) := by
  obtain ⟨d, hd⟩ := depthBound_eq w
  rw [body?, hd]
  exact agree_unit (d + 1) w

/-- A unit with what it stands for. -/
def unitOf (token : Token) : Piece × Option WrittenTag :=
  (Piece.ofToken token, writtenTag? token)

/-- The tokens of the units from the start of a window to its end. -/
inductive UnitRow : Window → List Token → Prop where
  | nil {w : Window} (h : w.size = 0) : UnitRow w []
  | cons {w : Window} {m : Match} {tokens : List Token} (hm : grammar.body? "unit" w = some m)
      (hpos : 0 < m.length) (hle : m.length ≤ w.size) (h : UnitRow (w.drop m.length) tokens) :
      UnitRow w (m.toToken "unit" w :: tokens)

/-- Every unit holds one token, over the same characters. -/
theorem UnitRow.exists_child {w : Window} {tokens : List Token} (h : UnitRow w tokens) :
    ∀ t ∈ tokens, ∃ child, t.children = [child] ∧ child.window = t.window ∧
      child.name ∈ unitKinds := by
  induction h with
  | nil => simp
  | cons hm _ _ _ ih =>
    refine List.forall_mem_cons.2 ⟨?_, ih⟩
    obtain ⟨name, hname, body, -, rfl⟩ := exists_kind_of_unit hm
    exact ⟨_, rfl, rfl, hname⟩

/-- A window that is not empty starts with a unit. -/
theorem exists_unit {w : Window} (hw : 0 < w.size) :
    ∃ m p, grammar.body? "unit" w = some m ∧ StandsForUnit w m p ∧
      Reader.piece? w.text = some (p, (w.drop m.length).text) ∧ 0 < m.length ∧
      m.length ≤ w.size := by
  rcases (agree_body?_unit w).cases with ⟨-, hr⟩ | ⟨m, p, hm, hr, hle, hp⟩
  · rw [← w.length_text] at hw
    obtain ⟨c, cs, htext⟩ := List.exists_cons_of_length_pos hw
    have := Reader.piece?_isSome c cs
    rw [← htext, hr] at this
    cases this
  · refine ⟨m, p, hm, hp, hr, ?_, hle⟩
    have := Reader.length_lt_of_piece? hr
    rw [Window.text_drop, List.length_drop] at this
    omega

/-- **Nothing but units.** A row of units goes on to the end of its window. -/
theorem unitRow_of_row {w rest : Window} {tokens : List Token}
    (h : Row grammar "unit" w tokens rest) : UnitRow w tokens ∧ rest.size = 0 := by
  induction h with
  | @done w hdone =>
    have hsize : w.size = 0 := by
      by_contra hw
      obtain ⟨m, -, hm, -, -, hpos, -⟩ := exists_unit (Nat.pos_of_ne_zero hw)
      exact Nat.ne_of_gt hpos (hdone m hm)
    exact ⟨.nil hsize, hsize⟩
  | token hm hpos _ ih => exact ⟨.cons hm hpos ((tame_body? grammar).fits _ _ _ hm) ih.1, ih.2⟩

/-- At the end of a text there is no unit, not even one of nothing. -/
theorem body?_unit_eq_none {w : Window} (hw : w.size = 0) : grammar.body? "unit" w = none := by
  have htext : w.text = [] := List.length_eq_zero_iff.1 (w.length_text.trans hw)
  rcases (agree_body?_unit w).cases with ⟨hm, -⟩ | ⟨m, p, -, hr, -, -⟩
  · exact hm
  · rw [htext] at hr
    cases hr

/-- The units of a row stand for what the reader reads. -/
theorem UnitRow.map_unitOf {w : Window} {tokens : List Token} (h : UnitRow w tokens) :
    tokens.map unitOf = Reader.units w.text := by
  induction h with
  | nil h => rw [List.length_eq_zero_iff.1 ((Window.length_text _).trans h), Reader.units_nil]; rfl
  | @cons w m tokens hm hpos hle _ ih =>
    obtain ⟨m', p, hm', hp, hread, -, -⟩ := exists_unit (Nat.lt_of_lt_of_le hpos hle)
    obtain rfl : m = m' := Option.some.inj (hm.symm.trans hm')
    rw [List.map_cons, ih, Reader.units_of_piece? hread, unitOf, hp.1 _ rfl, hp.2 _ rfl]

/-- The units of a text, each with the piece that it stands for and, if it is a start tag, the tag
as it is written. -/
def units (input : String) : List (Piece × Option WrittenTag) :=
  (unitTokens input).map unitOf

/-- The units of a text are a row from its start, which leaves nothing. -/
theorem exists_row_unitTokens (input : String) :
    ∃ rest, Row grammar "unit" (.whole input.toList) (unitTokens input) rest ∧ rest.size = 0 := by
  obtain ⟨tokens, rest, hrow⟩ := exists_row grammar "unit" (.whole input.toList)
  have hrest := (unitRow_of_row hrow).2
  have htokens : unitTokens input = tokens := by
    have := hrow.tokens_cursor leftRecursionFree_grammar
    rwa [leftOver, if_pos hrest, Option.toList_none, List.append_nil] at this
  exact ⟨rest, htokens ▸ hrow, hrest⟩

/-- The units of a text are a row from its start to its end. -/
theorem unitRow_unitTokens (input : String) :
    UnitRow (.whole input.toList) (unitTokens input) := by
  obtain ⟨rest, hrow, -⟩ := exists_row_unitTokens input
  exact (unitRow_of_row hrow).1

/-- **Reading unit by unit is what the reader does.** -/
theorem units_eq (input : String) : units input = Reader.units input.toList := by
  have h := (unitRow_unitTokens input).map_unitOf
  rwa [text_whole] at h

end Markup

theorem Piece.ofText_eq_pieces (input : String) :
    Piece.ofText input = Reader.pieces input.toList := by
  rw [Reader.pieces, ← Markup.units_eq, Markup.units, List.map_map]
  rfl

/-! ## As one document -/

namespace Markup

/-- **A text read as one document is one token of all its characters**, whose tokens are those that
a cursor hands out. -/
theorem documentToken_eq (input : String) :
    documentToken input = some ⟨"document", .whole input.toList, unitTokens input⟩ := by
  obtain ⟨rest, hrow, hrest⟩ := exists_row_unitTokens input
  have hdocument : grammar.rule? "document" = some (.reference .zeroOrMore "unit") := rfl
  have hmatch := hrow.matchAt_repetition leftRecursionFree_grammar hdocument (by decide)
  rw [body?_unit_eq_none hrest, hrest, Option.map_none, Option.toList_none,
    List.append_nil] at hmatch
  rw [documentToken, hmatch]
  simp [Window.whole, Window.upTo, Window.size]

/-- **Nothing is lost, and both ways agree.** The units of a text tile it from its start to its end,
each starts and stops between two characters and holds one token, of the same span and of one of the
kinds of units. Read as one document, the text is one token whose tokens are these units. -/
theorem document_eq_units (input : String) :
    Token.Tile 0 (Utf8.size input.toList) (unitTokens input) ∧
    (∀ t ∈ unitTokens input, t.name = "unit" ∧ t.name ≠ unmatched ∧
      Utf8.IsBoundary input.toList t.start ∧ Utf8.IsBoundary input.toList t.stop ∧
      ∃ child, t.children = [child] ∧ child.name ∈ unitKinds ∧
        child.start = t.start ∧ child.stop = t.stop) ∧
    ∃ document, documentToken input = some document ∧ document.name = "document" ∧
      document.start = 0 ∧ document.stop = Utf8.size input.toList ∧
      document.children = unitTokens input := by
  obtain ⟨rest, hrow, hrest⟩ := exists_row_unitTokens input
  refine ⟨?_, ?_, _, documentToken_eq input, rfl, start_whole _, stop_whole _, rfl⟩
  · have htile := hrow.tile (Nat.zero_le _)
    rwa [leftOver, if_pos hrest, Option.toList_none, List.append_nil, start_whole, stop_whole]
      at htile
  · intro t ht
    have hname : t.name = "unit" := hrow.name_eq t ht
    have hchars : t.window.input.chars.toList = input.toList := by
      rw [hrow.input_eq t ht]
      rfl
    obtain ⟨child, hchildren, hwindow, hkind⟩ := (unitRow_unitTokens input).exists_child t ht
    refine ⟨hname, ?_, ?_, ?_, child, hchildren, hkind, ?_, ?_⟩
    · rw [hname]
      decide
    · rw [← hchars]
      exact t.window.isBoundary_start
    · rw [← hchars]
      exact t.window.isBoundary_stop
    · rw [Token.start, Token.start, hwindow]
    · rw [Token.stop, Token.stop, hwindow]

end Markup

/-- **Reading one document gives the same pieces**, and leaves nothing unread. -/
theorem Piece.ofDocument_eq_ofText (input : String) :
    Piece.ofDocument input = Piece.ofText input := by
  have hsize : (Window.whole input.toList).size = input.toList.length := by
    rw [← Window.length_text, Markup.text_whole]
  rw [Piece.ofDocument, Markup.documentToken_eq, Piece.ofText]
  simp [hsize]

end MarkupFilter
