import MarkupFilter.Proofs.Grammar.TokenTrees

/-!
# Windows as texts

What a rule matches in a window of a text, it matches in the text of the window taken by itself, and
the other way round: a derivation over the one becomes a derivation over the other when all its
windows are moved. So a match depends on nothing that stands before the window or behind its limit.

## Main definitions

* `Window.into`, `Token.into`, `Match.into` — what stands in the text of a window, moved to where
  the window stands.
* `Token.spans` — the places of a token and of those inside it.

## Main results

* `Yields.into` — derivations can be moved.
* `matchAt_eq_into` — the match of a window is that of its text, moved.
* `spans_matchAt` — so its spans are moved by the start of the window.
-/

set_option autoImplicit false

namespace MarkupFilter.Grammar

/-! ## Moving -/

/-- The stretch `v` of the text of `u`, as a stretch of the text in which `u` stands. -/
def Window.into (u v : Window) : Window :=
  ⟨u.input, u.place + v.place, min (u.place + v.limit) u.limit,
    Nat.le_trans (Nat.min_le_right _ _) u.limit_le⟩

mutual

/-- A token over the text of `u`, moved to where `u` stands. -/
def Token.into (u : Window) : Token → Token
  | ⟨name, w, cs⟩ => ⟨name, u.into w, Token.allInto u cs⟩

/-- Tokens over the text of `u`, moved to where `u` stands. -/
def Token.allInto (u : Window) : List Token → List Token
  | [] => []
  | c :: cs => c.into u :: Token.allInto u cs

end

/-- A match over the text of `u`, moved to where `u` stands. -/
def Match.into (u : Window) (m : Match) : Match :=
  ⟨m.length, m.tokens.map (Token.into u)⟩

section

variable {u v : Window}

theorem Token.allInto_eq (cs : List Token) : Token.allInto u cs = cs.map (Token.into u) := by
  induction cs with
  | nil => rfl
  | cons c cs ih => rw [Token.allInto, ih, List.map_cons]

@[simp] theorem Token.name_into (t : Token) : (t.into u).name = t.name := by
  cases t
  rfl

@[simp] theorem Token.window_into (t : Token) : (t.into u).window = u.into t.window := by
  cases t
  rfl

theorem Window.into_drop (u v : Window) (n : Nat) : u.into (v.drop n) = (u.into v).drop n := by
  simp only [into, drop, Nat.add_assoc]

theorem Window.into_upTo (u v : Window) (n : Nat) :
    u.into (v.upTo (v.place + n)) = (u.into v).upTo ((u.into v).place + n) := by
  simp only [into, upTo, Window.mk.injEq, true_and]
  omega

theorem Match.into_append (m n : Match) : (m.append n).into u = (m.into u).append (n.into u) := by
  simp only [into, append, List.map_append]

theorem Match.into_toToken (m : Match) (name : String) (v : Window) :
    (m.toToken name v).into u = (m.into u).toToken name (u.into v) := by
  rw [toToken, Token.into, Token.allInto_eq, Window.into_upTo]
  rfl

theorem Match.into_named (m : Match) (name : String) (v : Window) :
    (m.named name v).into u = (m.into u).named name (u.into v) := by
  unfold named
  split
  · rfl
  · rw [← into_toToken]
    rfl

/-! ## What stands in a moved window -/

/-- A window over the text of another has no more characters before it and in it. -/
theorem Window.limit_le_size (hv : v.input = .ofList u.text) : v.limit ≤ u.size := by
  have hle := v.limit_le
  rw [hv, IndexedText.size, IndexedText.ofList, List.size_toArray, length_text] at hle
  exact hle

theorem Window.limit_into (hu : u.place ≤ u.limit) (hv : v.input = .ofList u.text) :
    (u.into v).limit = u.place + v.limit := by
  have hle := limit_le_size hv
  simp only [size] at hle
  simp only [into]
  omega

theorem Window.size_into (hu : u.place ≤ u.limit) (hv : v.input = .ofList u.text) :
    (u.into v).size = v.size := by
  rw [size, limit_into hu hv, size]
  simp only [into]
  omega

theorem Window.text_into (hu : u.place ≤ u.limit) (hv : v.input = .ofList u.text) :
    (u.into v).text = v.text := by
  have hle := limit_le_size hv
  have hinput : v.input.chars.toList = u.text := by rw [hv, IndexedText.ofList]
  rw [text_eq, size_into hu hv, text_eq, hinput, text_eq u, List.drop_take, List.drop_drop,
    List.take_take]
  congr 1
  simp only [size] at hle ⊢
  omega

/-- The window over the whole text of `u` is `u` itself. -/
theorem Window.into_whole (hu : u.place ≤ u.limit) : u.into (.whole u.text) = u := by
  have hlimit : (u.into (.whole u.text)).limit = u.limit := by
    rw [limit_into hu rfl]
    show u.place + (IndexedText.ofList u.text).size = u.limit
    rw [IndexedText.size, IndexedText.ofList, List.size_toArray, length_text, size]
    omega
  cases u
  simp only [into, mk.injEq] at hlimit ⊢
  exact ⟨trivial, rfl, hlimit⟩

theorem Window.literal?_into (hu : u.place ≤ u.limit) (hv : v.input = .ofList u.text)
    (text : List Char) : (u.into v).literal? text = (v.literal? text).map (Match.into u) := by
  rw [literal?_eq, literal?_eq, text_into hu hv]
  split <;> rfl

theorem Window.char?_into (hu : u.place ≤ u.limit) (hv : v.input = .ofList u.text)
    (p : Char → Bool) : (u.into v).char? p = (v.char? p).map (Match.into u) := by
  rw [char?_eq, char?_eq, text_into hu hv]
  split <;> rfl

end

/-! ## Derivations -/

section

variable {g : Grammar} {u v : Window} {part : Part} {o : Option Match}

/-- **Derivations can be moved.** The induction is on the derivation over the text of `u`. -/
theorem Yields.into (hu : u.place ≤ u.limit) (h : g.Yields part v o)
    (hv : v.input = .ofList u.text) : g.Yields part (u.into v) (o.map (Match.into u)) := by
  induction h with
  | undefined hname => exact .undefined hname
  | body hbody _ ih => exact .body hbody (ih hv)
  | one hq _ ih => exact .one hq (ih hv)
  | @optional _ _ o hq _ ih =>
    have hmoved := Yields.optional hq (ih hv)
    cases o <;> exact hmoved
  | zeroOrMore hq _ ih => exact .zeroOrMore hq (ih hv)
  | oneOrMore hq _ _ ihfirst ih => exact .oneOrMore hq (ihfirst hv) (ih hv)
  | notOnce hq _ ih => exact .notOnce hq (ih hv)
  | noMore _ ih => exact .noMore (ih hv)
  | last _ hm ih => exact .last (ih hv) hm
  | @again _ w m _ _ hm _ ih ihmore =>
    have hmore := ihmore hv
    rw [Window.into_drop] at hmore
    rw [Option.map_some, Match.into_append]
    exact .again (ih hv) hm hmore
  | literal =>
    rw [← Window.literal?_into hu hv]
    exact .literal
  | charSet =>
    rw [← Window.char?_into hu hv]
    exact .charSet
  | charCode =>
    rw [← Window.char?_into hu hv]
    exact .charCode
  | sequence _ ih => exact .sequence (ih hv)
  | choice _ ih => exact .choice (ih hv)
  | @upTo _ _ _ w n _ _ hn _ _ _ ihbefore ihright ih =>
    have hright := ihright hv
    have hleft := ih hv
    rw [Window.into_drop] at hright
    rw [Window.into_upTo] at hleft
    refine .upTo (Window.size_into hu hv ▸ hn) (fun k hk => ?_) hright hleft
    rw [← Window.into_drop]
    exact ihbefore k hk hv
  | @throughout _ _ _ w _ _ _ ihright ih =>
    refine .throughout (fun k hk => ?_) (ih hv)
    rw [← Window.into_drop]
    exact ihright k (Window.size_into hu hv ▸ hk) hv
  | @reference _ name w o _ ih =>
    have hnamed : (o.map (·.named name w)).map (Match.into u) =
        (o.map (Match.into u)).map (·.named name (u.into w)) := by
      cases o with
      | none => rfl
      | some m => exact congrArg some (m.into_named name w)
    rw [hnamed]
    exact .reference (ih hv)
  | noItem => exact .noItem
  | @item _ _ w m o _ _ ih ihrest =>
    have hrest := ihrest hv
    rw [Window.into_drop] at hrest
    have happend : (o.map m.append).map (Match.into u) =
        (o.map (Match.into u)).map (m.into u).append := by
      cases o with
      | none => rfl
      | some more => exact congrArg some (m.into_append more)
    rw [happend]
    exact .item (ih hv) hrest
  | missing _ ih => exact .missing (ih hv)
  | noAlternative => exact .noAlternative
  | chosen _ ih => exact .chosen (ih hv)
  | next _ _ ih ihrest => exact .next (ih hv) (ihrest hv)

end

/-! ## Spans -/

/-- The rows of a token, each with its depth, its name, and the bytes before its start and its
end. -/
def Token.spans (t : Token) : List (Nat × String × Nat × Nat) :=
  (t.rows 0).map fun row => (row.1, row.2.name, row.2.start, row.2.stop)

/-- A row of spans, moved by a number of bytes. -/
def moveSpan (bytes : Nat) : Nat × String × Nat × Nat → Nat × String × Nat × Nat
  | (depth, name, start, stop) => (depth, name, bytes + start, bytes + stop)

section

variable {g : Grammar} {u v w : Window} {t : Token}

mutual

theorem Token.rows_into (u : Window) (depth : Nat) (t : Token) :
    (t.into u).rows depth = (t.rows depth).map fun row => (row.1, row.2.into u) := by
  match t with
  | ⟨name, w, cs⟩ =>
    rw [Token.into, Token.rows_mk, Token.rows_mk, List.map_cons, Token.into,
      Token.rowsOf_allInto u (depth + 1) cs]

theorem Token.rowsOf_allInto (u : Window) (depth : Nat) (ts : List Token) :
    Token.rowsOf depth (Token.allInto u ts) =
      (Token.rowsOf depth ts).map fun row => (row.1, row.2.into u) := by
  match ts with
  | [] => rfl
  | t :: ts =>
    rw [Token.allInto, Token.rowsOf_cons, Token.rowsOf_cons, List.map_append,
      Token.rows_into u depth t, Token.rowsOf_allInto u depth ts]

end

/-- The bytes before a place of the text of `u`, counted where `u` stands. -/
theorem Window.offset_into (u : Window) {n : Nat} (hn : n ≤ u.size) :
    u.input.offset (u.place + n) = u.start + (IndexedText.ofList u.text).offset n := by
  have htext : (IndexedText.ofList u.text).chars.toList.take n =
      (u.input.chars.toList.drop u.place).take n := by
    rw [IndexedText.ofList, List.toList_toArray, text_eq, List.take_take, Nat.min_eq_left hn]
  rw [IndexedText.offset_eq, IndexedText.offset_eq, htext, List.take_add, Utf8.size_append,
    start_eq]

theorem Window.start_into (hv : v.input = .ofList u.text) (hplace : v.place ≤ v.limit) :
    (u.into v).start = u.start + v.start := by
  have hoffset := u.offset_into (Nat.le_trans hplace (limit_le_size hv))
  rw [← hv] at hoffset
  exact hoffset

theorem Window.stop_into (hu : u.place ≤ u.limit) (hv : v.input = .ofList u.text) :
    (u.into v).stop = u.start + v.stop := by
  have hoffset := u.offset_into (limit_le_size hv)
  rw [← hv, ← limit_into hu hv] at hoffset
  exact hoffset

/-- The spans of a tree over the text of `u`, moved to where `u` stands. -/
theorem Token.IsTree.spans_into (h : t.IsTree g) (hu : u.place ≤ u.limit)
    (ht : t.window.input = .ofList u.text) : (t.into u).spans = t.spans.map (moveSpan u.start) := by
  rw [Token.spans, Token.rows_into, Token.spans, List.map_map, List.map_map]
  refine List.map_congr_left fun row hrow => ?_
  obtain ⟨htree, hwithin⟩ := h.forall_rows hrow
  have hinput := hwithin.input_eq.trans ht
  simp only [Function.comp_apply, moveSpan, Token.name_into, Token.start, Token.stop,
    Token.window_into, Window.start_into hinput htree.place_le, Window.stop_into hu hinput]

/-! ## Matches -/

/-- **The match of a window is that of its text**, moved to where the window stands. -/
theorem matchAt_eq_into (hg : g.LeftRecursionFree) (name : String) (hw : w.place ≤ w.limit) :
    g.matchAt name w = (g.matchAt name (.whole w.text)).map (Token.into w) := by
  have hmoved := (yields_body? hg name (.whole w.text)).into hw rfl
  rw [Window.into_whole hw] at hmoved
  rw [matchAt_eq hg, matchAt_eq hg, ← (yields_named_iff hg).1 hmoved, Option.map_map,
    Option.map_map]
  congr 1
  funext m
  rw [Function.comp_apply, Function.comp_apply, Match.into_toToken, Window.into_whole hw]

/-- **Matching reads its window only.** In a grammar without left recursion, the spans that a rule
matches in a window are those that it matches in the text of the window by itself, moved by the
start of the window; and there are none if there are none. So they are the same in every text that
has the same characters in a window with the same start. -/
theorem spans_matchAt (hg : g.LeftRecursionFree) (name : String) (hw : w.place ≤ w.limit) :
    (g.matchAt name w).map Token.spans =
        (g.matchAt name (.whole w.text)).map (fun t => t.spans.map (moveSpan w.start)) ∧
      ∀ v : Window, v.place ≤ v.limit → v.text = w.text → v.start = w.start →
        (g.matchAt name v).map Token.spans = (g.matchAt name w).map Token.spans := by
  have hspans : ∀ w : Window, w.place ≤ w.limit → (g.matchAt name w).map Token.spans =
      (g.matchAt name (.whole w.text)).map (fun t => t.spans.map (moveSpan w.start)) := by
    intro w hw
    rw [matchAt_eq_into hg name hw, Option.map_map]
    refine Option.map_congr fun t ht => ?_
    obtain ⟨htree, hwithin⟩ := isTree_of_matchAt hg (Nat.zero_le _) ht
    exact htree.spans_into hw hwithin.input_eq
  refine ⟨hspans w hw, fun v hv htext hstart => ?_⟩
  rw [hspans v hv, hspans w hw, htext, hstart]

end

/-- The word is read up to the limit, whatever follows, and the pair is given up there. -/
theorem spans_matchAt_entry :
    let w : Window := ⟨.ofList ";né;".toList, 1, 3, by decide⟩
    let v : Window := ⟨.ofList "=néx=né".toList, 1, 3, by decide⟩
    entryGrammar.LeftRecursionFree ∧ w.place ≤ w.limit ∧ v.place ≤ v.limit ∧ v.text = w.text ∧
      v.start = w.start ∧
      (entryGrammar.matchAt "entry" (.whole w.text)).map Token.spans =
        some [(0, "entry", 0, 3), (1, "word", 0, 3)] ∧
      (entryGrammar.matchAt "entry" w).map Token.spans =
        (entryGrammar.matchAt "entry" (.whole w.text)).map
          (fun t => t.spans.map (moveSpan w.start)) ∧
      (entryGrammar.matchAt "entry" v).map Token.spans =
        (entryGrammar.matchAt "entry" w).map Token.spans ∧
      (entryGrammar.matchAt "entry" v).map Token.spans =
        some [(0, "entry", 1, 4), (1, "word", 1, 4)] := by
  intro w v
  have hfree := leftRecursionFree_entryGrammar
  obtain ⟨hmoved, hsame⟩ := spans_matchAt hfree "entry" (w := w) (by decide)
  exact ⟨hfree, by decide, by decide, by decide, by decide, by decide, hmoved,
    hsame v (by decide) (by decide) (by decide), by decide⟩

end MarkupFilter.Grammar
