import MarkupFilter.Grammar.Cursor
import MarkupFilter.Proofs.Grammar.Remembering

/-!
# Rows of tokens

A rule that is matched again and again makes a row of tokens, up to the place where it matches no
more or matches nothing. A cursor hands out the tokens of the row, and then all that is left as one
token. A repetition makes the same tokens, and perhaps one more of nothing.

## Main definitions

* `Row` — the tokens that a rule makes one after the other, and the window that is left.
* `Token.Tile` — tokens that stand right after one another.

## Main results

* `Row.tokens_cursor` — a cursor hands out a row and what it leaves.
* `Row.found_repeated` — a repetition finds a row, and perhaps nothing once more.
* `Row.tile` — a row and what it leaves tile the text.
* `cursor_tokens_eq_children` — a cursor and a repetition read the same tokens.
-/

set_option autoImplicit false

namespace MarkupFilter

theorem Utf8.size_pos {cs : List Char} (h : cs ≠ []) : 0 < Utf8.size cs := by
  obtain ⟨c, cs, rfl⟩ := List.exists_cons_of_ne_nil h
  rw [Utf8.size_cons]
  have := c.utf8Size_pos
  omega

theorem IndexedText.offset_mono (t : IndexedText) {i j : Nat} (h : i ≤ j) :
    t.offset i ≤ t.offset j := by
  rw [offset_eq, offset_eq, ← Nat.add_sub_of_le h, List.take_add, Utf8.size_append]
  exact Nat.le_add_right _ _

/-- The first `n` bytes of a text are some of its characters. -/
def Utf8.IsBoundary (cs : List Char) (n : Nat) : Prop :=
  ∃ k, n = Utf8.size (cs.take k)

namespace Grammar

/-! ## Windows in bytes -/

theorem start_whole (cs : List Char) : (Window.whole cs).start = 0 := by
  rw [Window.start_eq]
  simp [Window.whole]

theorem stop_whole (cs : List Char) : (Window.whole cs).stop = Utf8.size cs := by
  rw [Window.stop, IndexedText.offset_eq]
  simp [Window.whole, IndexedText.ofList, IndexedText.size]

theorem Window.isBoundary_start (w : Window) : Utf8.IsBoundary w.input.chars.toList w.start :=
  ⟨w.place, w.start_eq⟩

theorem Window.isBoundary_stop (w : Window) : Utf8.IsBoundary w.input.chars.toList w.stop :=
  ⟨w.limit, w.input.offset_eq w.limit⟩

/-! ## Tokens that tile a text -/

/-- The tokens are not empty and stand right after one another, from the byte `start` to the byte
`stop`. -/
def Token.Tile (start stop : Nat) : List Token → Prop
  | [] => start = stop
  | t :: ts => t.start = start ∧ t.start < t.stop ∧ Token.Tile t.stop stop ts

theorem Token.Tile.append {start middle stop : Nat} {ts us : List Token}
    (h : Token.Tile start middle ts) (h' : Token.Tile middle stop us) :
    Token.Tile start stop (ts ++ us) := by
  induction ts generalizing start with
  | nil =>
    obtain rfl : start = middle := h
    exact h'
  | cons t ts ih =>
    obtain ⟨hstart, hlt, hrest⟩ := h
    exact ⟨hstart, hlt, ih hrest⟩

/-! ## Tokens of matches -/

section

variable {w : Window} {m : Match} {name : String}

theorem size_toToken (m : Match) (name : String) (h : m.length ≤ w.size) :
    (m.toToken name w).window.size = m.length := by
  simp only [Match.toToken, Window.upTo, Window.size] at h ⊢
  omega

theorem stop_toToken (name : String) (h : w.place + m.length ≤ w.limit) :
    (m.toToken name w).stop = (w.drop m.length).start := by
  simp only [Token.stop, Match.toToken, Window.stop, Window.start, Window.upTo, Window.drop]
  rw [Nat.min_eq_left h]

/-- A token with characters takes bytes. -/
theorem Token.start_lt_stop {t : Token} (h : 0 < t.window.size) : t.start < t.stop := by
  have hle : t.window.place ≤ t.window.limit := by
    simp only [Window.size] at h
    omega
  have htext : t.window.text ≠ [] := by
    intro hnil
    rw [← Window.length_text, hnil] at h
    cases h
  have := Utf8.size_pos htext
  rw [Token.start, Token.stop, Window.stop_eq _ hle]
  omega

/-- A token without characters takes no bytes. -/
theorem Token.stop_le_start {t : Token} (h : t.window.size = 0) : t.stop ≤ t.start :=
  t.window.input.offset_mono (Nat.sub_eq_zero_iff_le.1 h)

end

/-! ## Rows -/

section

variable (g : Grammar) (unit : String)

/-- The tokens that the rule `unit` makes one after the other from the start of a window, and the
window that is left where it matches no more, or matches nothing. -/
inductive Row : Window → List Token → Window → Prop where
  | done {w : Window} (h : ∀ m, g.body? unit w = some m → m.length = 0) : Row w [] w
  | token {w rest : Window} {m : Match} {tokens : List Token} (hm : g.body? unit w = some m)
      (hpos : 0 < m.length) (h : Row (w.drop m.length) tokens rest) :
      Row w (m.toToken unit w :: tokens) rest

end

/-- What a cursor hands out of a window in which its rule cannot be matched. -/
def leftOver (w : Window) : Option Token :=
  if w.size = 0 then none else some ⟨unmatched, w, []⟩

section

variable {g : Grammar} {unit : String} {w rest : Window} {tokens : List Token}

theorem exists_row (g : Grammar) (unit : String) (w : Window) :
    ∃ tokens rest, Row g unit w tokens rest := by
  induction hn : w.size using Nat.strongRecOn generalizing w with
  | _ n ih =>
    by_cases hdone : ∀ m, g.body? unit w = some m → m.length = 0
    · exact ⟨[], w, .done hdone⟩
    · obtain ⟨m, hm, hpos⟩ : ∃ m, g.body? unit w = some m ∧ 0 < m.length := by
        simpa [Nat.pos_iff_ne_zero] using hdone
      have hfit := (tame_body? g).fits unit w m hm
      obtain ⟨tokens, rest, hrow⟩ :=
        ih (w.drop m.length).size (by rw [Window.size_drop]; omega) (w.drop m.length) rfl
      exact ⟨_, rest, .token hm hpos hrow⟩

namespace Row

/-- Where a row ends, its rule matches nothing or not at all. -/
theorem length_eq_zero (h : Row g unit w tokens rest) :
    ∀ m, g.body? unit rest = some m → m.length = 0 := by
  induction h with
  | done h => exact h
  | token _ _ _ ih => exact ih

/-- What a row leaves is the end of its window. -/
theorem rest_eq (h : Row g unit w tokens rest) :
    rest.size ≤ w.size ∧ rest = w.drop (w.size - rest.size) := by
  induction h with
  | done => exact ⟨Nat.le_refl _, by rw [Nat.sub_self]; rfl⟩
  | @token w rest m tokens hm hpos _ ih =>
    obtain ⟨hle, hrest⟩ := ih
    have hfit := (tame_body? g).fits unit w m hm
    rw [Window.size_drop] at hle hrest
    refine ⟨by omega, hrest.trans ?_⟩
    simp only [Window.drop]
    congr 1
    omega

theorem name_eq (h : Row g unit w tokens rest) : ∀ t ∈ tokens, t.name = unit := by
  induction h with
  | done => simp
  | token _ _ _ ih => exact List.forall_mem_cons.2 ⟨rfl, ih⟩

theorem size_pos (h : Row g unit w tokens rest) : ∀ t ∈ tokens, 0 < t.window.size := by
  induction h with
  | done => simp
  | token hm hpos _ ih =>
    refine List.forall_mem_cons.2 ⟨?_, ih⟩
    rwa [size_toToken _ _ ((tame_body? g).fits _ _ _ hm)]

theorem input_eq (h : Row g unit w tokens rest) : ∀ t ∈ tokens, t.window.input = w.input := by
  induction h with
  | done => simp
  | token _ _ _ ih => exact List.forall_mem_cons.2 ⟨rfl, ih⟩

/-! ### Places -/

/-- The tokens of a row tile the text up to what is left. -/
theorem tile_tokens (h : Row g unit w tokens rest) (hle : w.place ≤ w.limit) :
    Token.Tile w.start rest.start tokens := by
  induction h with
  | done => exact rfl
  | @token w rest m tokens hm hpos _ ih =>
    have hfit := (tame_body? g).fits unit w m hm
    have hend : w.place + m.length ≤ w.limit := by
      simp only [Window.size] at hfit
      omega
    refine ⟨rfl, Token.start_lt_stop ?_, ?_⟩
    · rwa [size_toToken _ _ hfit]
    · rw [stop_toToken unit hend]
      exact ih hend

end Row

theorem eq_of_mem_leftOver {t : Token} (h : t ∈ leftOver w) : t = ⟨unmatched, w, []⟩ := by
  unfold leftOver at h
  split at h
  · cases h
  · exact (Option.some.inj h).symm

theorem tile_leftOver (hle : w.place ≤ w.limit) :
    Token.Tile w.start w.stop (leftOver w).toList := by
  unfold leftOver
  split
  · next hsize =>
    have hend : w.place = w.limit := by
      simp only [Window.size] at hsize
      omega
    show w.start = w.stop
    rw [Window.start, Window.stop, hend]
  · next hsize => exact ⟨rfl, Token.start_lt_stop (Nat.pos_of_ne_zero hsize), rfl⟩

theorem isSome_leftOver (hle : w.place ≤ w.limit) :
    (leftOver w).isSome ↔ w.start < w.stop := by
  have htile := tile_leftOver hle
  unfold leftOver at htile ⊢
  split
  · next hsize =>
    rw [if_pos hsize] at htile
    have heq : w.start = w.stop := htile
    simp [heq]
  · next hsize =>
    have hlt : w.start < w.stop := Token.start_lt_stop (t := ⟨unmatched, w, []⟩)
      (Nat.pos_of_ne_zero hsize)
    simp [hlt]

namespace Row

theorem place_le (h : Row g unit w tokens rest) (hle : w.place ≤ w.limit) :
    rest.place ≤ rest.limit := by
  obtain ⟨hsize, hrest⟩ := h.rest_eq
  rw [hrest]
  simp only [Window.place_drop, Window.limit_drop]
  simp only [Window.size] at hsize ⊢
  omega

theorem stop_eq (h : Row g unit w tokens rest) : rest.stop = w.stop := by
  rw [h.rest_eq.2]
  rfl

/-- What a row takes ends where what it leaves starts. -/
theorem stop_upTo (h : Row g unit w tokens rest) (hle : w.place ≤ w.limit) :
    (w.upTo (w.place + (w.size - rest.size))).stop = rest.start := by
  have hend : w.place + (w.size - rest.size) ≤ w.limit := by
    simp only [Window.size]
    omega
  conv_rhs => rw [h.rest_eq.2]
  simp only [Window.stop, Window.start, Window.upTo, Window.drop]
  rw [Nat.min_eq_left hend]

/-- **A row and what it leaves tile the text.** -/
theorem tile (h : Row g unit w tokens rest) (hle : w.place ≤ w.limit) :
    Token.Tile w.start w.stop (tokens ++ (leftOver rest).toList) := by
  rw [← h.stop_eq]
  exact (h.tile_tokens hle).append (tile_leftOver (h.place_le hle))

end Row

/-! ## Rows read by a cursor -/

section

variable {input : IndexedText} {memo : SearchMemo}

/-- A cursor matches its rule plainly, whatever it remembers. -/
theorem exists_run_matchWith (hg : g.LeftRecursionFree) (name : String) (hover : w.Over input)
    (hmemo : memo.Sound (Rule.matches? g.body?) input) :
    ∃ memo', (g.matchWith name w).run memo =
        ((g.body? name w).map fun m => m.toToken name w, memo') ∧
      memo'.Sound (Rule.matches? g.body?) input := by
  obtain ⟨hrun, hsound⟩ := matchWith_computes hg name hover memo hmemo
  exact ⟨((g.matchWith name w).run memo).2, Prod.ext hrun rfl, hsound⟩

/-- Where its rule matches something, a cursor hands out the match. -/
theorem next?_of_match (hg : g.LeftRecursionFree) (hover : w.Over input)
    (hmemo : memo.Sound (Rule.matches? g.body?) input) {m : Match} (hm : g.body? unit w = some m)
    (hpos : 0 < m.length) :
    ∃ memo', (⟨g, unit, w, memo⟩ : Cursor).next? =
        some (m.toToken unit w, ⟨g, unit, w.drop m.length, memo'⟩) ∧
      memo'.Sound (Rule.matches? g.body?) input := by
  have hfit := (tame_body? g).fits unit w m hm
  obtain ⟨memo', hrun, hsound⟩ := exists_run_matchWith hg unit hover hmemo
  have hw : ¬ w.size = 0 := by omega
  refine ⟨memo', ?_, hsound⟩
  rw [Cursor.next?, if_neg hw]
  simp only [hrun, hm, Option.map_some, size_toToken m unit hfit, Nat.ne_of_gt hpos, if_false]
  rfl

/-- Where its rule matches nothing or not at all, a cursor hands out what is left. -/
theorem next?_of_done (hg : g.LeftRecursionFree) (hover : w.Over input)
    (hmemo : memo.Sound (Rule.matches? g.body?) input) (hw : ¬ w.size = 0)
    (hdone : ∀ m, g.body? unit w = some m → m.length = 0) :
    ∃ memo', (⟨g, unit, w, memo⟩ : Cursor).next? =
      some (⟨unmatched, w, []⟩, ⟨g, unit, w.drop w.size, memo'⟩) := by
  obtain ⟨memo', hrun, -⟩ := exists_run_matchWith hg unit hover hmemo
  refine ⟨memo', ?_⟩
  rw [Cursor.next?, if_neg hw]
  simp only [hrun]
  cases hm : g.body? unit w with
  | none => rfl
  | some m =>
    have hfit := (tame_body? g).fits unit w m hm
    simp only [Option.map_some, size_toToken m unit hfit, hdone m hm, if_true]
    rfl

theorem stepsFrom_of_size_eq_zero {c : Cursor} (h : c.window.size = 0) (fuel : Nat)
    (done : List (Token × Nat)) : Cursor.stepsFrom fuel c done = done.reverse := by
  cases fuel with
  | zero => rfl
  | succ fuel =>
    have hnext : c.next? = none := by rw [Cursor.next?, if_pos h]
    simp only [Cursor.stepsFrom, hnext]

/-- The tokens that a cursor hands out after those in `done` are a row and what it leaves. The
induction is on the row; every token of it takes some of the fuel and at least as many
characters. -/
theorem Row.map_stepsFrom (hg : g.LeftRecursionFree) (h : Row g unit w tokens rest)
    (hover : w.Over input) (hmemo : memo.Sound (Rule.matches? g.body?) input) (fuel : Nat)
    (hfuel : w.size ≤ fuel) (done : List (Token × Nat)) :
    (Cursor.stepsFrom fuel ⟨g, unit, w, memo⟩ done).map Prod.fst =
      done.reverse.map Prod.fst ++ (tokens ++ (leftOver rest).toList) := by
  induction h generalizing fuel memo done with
  | @done w hdone =>
    rw [leftOver, List.nil_append]
    by_cases hw : w.size = 0
    · rw [stepsFrom_of_size_eq_zero hw, if_pos hw, Option.toList_none, List.append_nil]
    · obtain ⟨fuel, rfl⟩ : ∃ k, fuel = k + 1 := ⟨fuel - 1, by omega⟩
      obtain ⟨memo', hnext⟩ := next?_of_done hg hover hmemo hw hdone
      simp only [Cursor.stepsFrom, hnext]
      rw [stepsFrom_of_size_eq_zero (by simp), if_neg hw]
      simp
  | @token w rest m tokens hm hpos _ ih =>
    have hfit := (tame_body? g).fits unit w m hm
    obtain ⟨fuel, rfl⟩ : ∃ k, fuel = k + 1 := ⟨fuel - 1, by omega⟩
    obtain ⟨memo', hnext, hsound⟩ := next?_of_match hg hover hmemo hm hpos
    simp only [Cursor.stepsFrom, hnext]
    rw [ih (hover.drop hfit) hsound fuel (by rw [Window.size_drop]; omega)]
    simp

/-- **A cursor hands out a row and what it leaves.** -/
theorem Row.tokens_cursor (hg : g.LeftRecursionFree) (h : Row g unit w tokens rest) :
    (⟨g, unit, w, {}⟩ : Cursor).tokens = tokens ++ (leftOver rest).toList :=
  h.map_stepsFrom hg (.inl rfl) (SearchMemo.sound_empty _ _) _ (Nat.le_refl _) []

end

/-! ## Rows read by a repetition -/

/-- **A repetition finds a row**, and the match of nothing where the row ends, if there is one. The
induction is on the row; every token of it takes some of the fuel. -/
theorem Row.found_repeated (hunit : isSilent unit = false) (h : Row g unit w tokens rest)
    (fuel : Nat) (hfuel : w.size < fuel) :
    (repeated (fun w => (g.body? unit w).map (·.named unit w)) fuel w).found =
      ⟨w.size - rest.size,
        tokens ++ ((g.body? unit rest).map fun m => m.toToken unit rest).toList⟩ := by
  have hnamed : ∀ (m : Match) (w : Window), m.named unit w = ⟨m.length, [m.toToken unit w]⟩ := by
    intro m w
    simp [Match.named, hunit]
  induction h generalizing fuel with
  | @done w hdone =>
    obtain ⟨fuel, rfl⟩ : ∃ k, fuel = k + 1 := ⟨fuel - 1, by omega⟩
    rw [repeated]
    cases hm : g.body? unit w with
    | none => simp [Match.empty]
    | some m => simp [hnamed, hdone m hm]
  | @token w rest m tokens hm hpos hrow ih =>
    have hfit := (tame_body? g).fits unit w m hm
    have hle := hrow.rest_eq.1
    obtain ⟨fuel, rfl⟩ : ∃ k, fuel = k + 1 := ⟨fuel - 1, by omega⟩
    rw [repeated, hm, Option.map_some, hnamed]
    simp only [Nat.ne_of_gt hpos, if_false]
    rw [ih fuel (by rw [Window.size_drop]; omega)]
    rw [Window.size_drop] at hle ⊢
    have hlength : m.length + (w.size - m.length - rest.size) = w.size - rest.size := by omega
    simp only [Match.append, List.cons_append, List.nil_append, hlength]

end

/-! ## Both ways to read a text -/

section

variable {g : Grammar} {all unit : String} {w rest : Window} {tokens : List Token}

theorem matchAt_eq (hg : g.LeftRecursionFree) (name : String) (w : Window) :
    g.matchAt name w = (g.body? name w).map fun m => m.toToken name w :=
  (matchWith_computes hg name (.inl rfl) {} (SearchMemo.sound_empty _ _)).1

/-- The match of a rule that repeats another has the tokens of a row, and perhaps one more of
nothing. -/
theorem Row.matchAt_repetition (hg : g.LeftRecursionFree)
    (hall : g.rule? all = some (.reference .zeroOrMore unit)) (hunit : isSilent unit = false)
    (h : Row g unit w tokens rest) :
    g.matchAt all w = some ⟨all, w.upTo (w.place + (w.size - rest.size)),
      tokens ++ ((g.body? unit rest).map fun m => m.toToken unit rest).toList⟩ := by
  have hbody : g.body? all w =
      some (repeated (fun w => (g.body? unit w).map (·.named unit w)) (w.size + 1) w).found := by
    rw [body?_eq hg, hall, Option.bind_some, Rule.matches?, Quantifier.matches?]
  rw [matchAt_eq hg, hbody, h.found_repeated hunit _ (Nat.lt_succ_self _)]
  rfl

theorem Row.filter_eq (h : Row g unit w tokens rest) :
    (tokens ++ ((g.body? unit rest).map fun m => m.toToken unit rest).toList).filter
      (fun t => t.start < t.stop) = tokens := by
  have htokens : ∀ t ∈ tokens, t.start < t.stop := fun t ht => Token.start_lt_stop (h.size_pos t ht)
  have hlast : ∀ t ∈ ((g.body? unit rest).map fun m => m.toToken unit rest).toList,
      ¬ t.start < t.stop := by
    intro t ht
    rw [Option.mem_toList, Option.map_eq_some_iff] at ht
    obtain ⟨m, hm, rfl⟩ := ht
    have hsize : (m.toToken unit rest).window.size = 0 := by
      rw [size_toToken _ _ ((tame_body? g).fits _ _ _ hm), h.length_eq_zero m hm]
    exact Nat.not_lt.2 (Token.stop_le_start hsize)
  rw [List.filter_append, List.filter_eq_self.2 (by simpa using htokens),
    List.filter_eq_nil_iff.2 (by simpa using hlast), List.append_nil]

end

/-- **A cursor and a repetition read the same tokens.** If the rule `all` is `unit*`, in a grammar
without left recursion, then a cursor for `unit` hands out the tokens directly inside the match of
`all`, but for one of nothing. Where that match leaves a part of the text unread, and only then, the
cursor hands out that part as one more token. Its tokens tile the text. -/
theorem cursor_tokens_eq_children (g : Grammar) (hg : g.LeftRecursionFree) (all unit : String)
    (hall : g.rule? all = some (.reference .zeroOrMore unit)) (hdefined : g.defines unit = true)
    (hunit : isSilent unit = false) (input : String) :
    ∃ bulk cursor, g.tokenize all input = .ok (some bulk) ∧ g.cursor unit input = .ok cursor ∧
      (∃ remainder : Option Token,
        cursor.tokens = bulk.children.filter (fun t => t.start < t.stop) ++ remainder.toList ∧
        (remainder.isSome ↔ bulk.stop < Utf8.size input.toList) ∧
        ∀ t ∈ remainder, t.name = unmatched ∧ t.children = [] ∧ t.start = bulk.stop ∧
          t.stop = Utf8.size input.toList) ∧
      (∀ t ∈ bulk.children, t.name = unit) ∧
      Token.Tile 0 (Utf8.size input.toList) cursor.tokens := by
  obtain ⟨tokens, rest, hrow⟩ := exists_row g unit (.whole input.toList)
  have hall' : g.defines all = true := by
    rw [defines, hall]
    rfl
  have hplace := hrow.place_le (Nat.zero_le _)
  have hbulk := hrow.stop_upTo (Nat.zero_le _)
  refine ⟨_, g.cursorOf unit input.toList,
    (if_pos hall').trans (congrArg Except.ok (hrow.matchAt_repetition hg hall hunit)),
    if_pos hdefined, ?_, ?_, ?_⟩
  · rw [← stop_whole, ← hrow.stop_eq]
    refine ⟨leftOver rest, ?_, ?_, ?_⟩
    · rw [hrow.filter_eq]
      exact hrow.tokens_cursor hg
    · rw [isSome_leftOver hplace, ← hbulk]
      rfl
    · intro t ht
      obtain rfl := eq_of_mem_leftOver ht
      exact ⟨rfl, rfl, hbulk.symm, rfl⟩
  · intro t ht
    rcases List.mem_append.1 ht with ht | ht
    · exact hrow.name_eq t ht
    · rw [Option.mem_toList, Option.map_eq_some_iff] at ht
      obtain ⟨m, -, rfl⟩ := ht
      rfl
  · have htile := hrow.tile (Nat.zero_le _)
    rw [start_whole, stop_whole, ← hrow.tokens_cursor hg] at htile
    exact htile

/-- Words and blanks, where a blank may be missing. -/
def wordGrammar : Grammar :=
  ⟨[("all", .reference .zeroOrMore "unit"),
    ("unit", .choice .one [.charSet .oneOrMore ⟨[('a', 'z')], false⟩, .literal .optional [' ']])]⟩

/-- The repetition ends with a match of nothing before the `#`, where the cursor hands out what is
left. -/
theorem cursor_tokens_eq_children_words :
    wordGrammar.LeftRecursionFree ∧
      wordGrammar.rule? "all" = some (.reference .zeroOrMore "unit") ∧
      wordGrammar.defines "unit" = true ∧ isSilent "unit" = false ∧
      ∃ bulk cursor, wordGrammar.tokenize "all" "ab c#d" = .ok (some bulk) ∧
        wordGrammar.cursor "unit" "ab c#d" = .ok cursor ∧
        (bulk.children.map fun t => (t.start, t.stop)) = [(0, 2), (2, 3), (3, 4), (4, 4)] ∧
        (∃ remainder : Option Token,
          cursor.tokens = bulk.children.filter (fun t => t.start < t.stop) ++ remainder.toList ∧
          (remainder.isSome ↔ bulk.stop < Utf8.size "ab c#d".toList) ∧
          ∀ t ∈ remainder, t.name = unmatched ∧ t.children = [] ∧ t.start = bulk.stop ∧
            t.stop = Utf8.size "ab c#d".toList) ∧
        (∀ t ∈ bulk.children, t.name = "unit") ∧
        Token.Tile 0 (Utf8.size "ab c#d".toList) cursor.tokens := by
  have hfree : wordGrammar.LeftRecursionFree :=
    leftRecursionFree_of_ranked ["unit", "all"] ["unit", "all"] (by decide) (by decide)
  obtain ⟨bulk, cursor, hbulk, hcursor, h⟩ :=
    cursor_tokens_eq_children wordGrammar hfree "all" "unit" rfl rfl rfl "ab c#d"
  have hspans : (wordGrammar.matchAt "all" (.whole "ab c#d".toList)).map
      (fun t => t.children.map fun t => (t.start, t.stop)) =
        some [(0, 2), (2, 3), (3, 4), (4, 4)] := by decide
  have hmatch : wordGrammar.matchAt "all" (.whole "ab c#d".toList) = some bulk :=
    Except.ok.inj hbulk
  rw [hmatch, Option.map_some] at hspans
  exact ⟨hfree, rfl, rfl, rfl, bulk, cursor, hbulk, hcursor, Option.some.inj hspans, h⟩

end Grammar

end MarkupFilter
