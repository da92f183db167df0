import MarkupFilter.Proofs.Grammar.Derivations
import MarkupFilter.Proofs.Grammar.TokenPlaces

/-!
# Token trees

Every token in the tree of a match is what its own rule yields at its place. The tokens directly
inside another stand apart within it and are made by rules of the grammar that are not silent. Since
a derivation has no other outcome, nothing in the tree comes from a part that failed.

## Main definitions

* `Token.IsTree` — a token and the tokens inside it are derived, and stand as they should.
* `Token.Placed` — what this means for the spans of one token and of those directly inside it.

## Main results

* `Yields.makesTrees` — the tokens of derived matches are trees.
* `matchAt_placed` — the token of a match, and all tokens inside it, are placed and derived.
-/

set_option autoImplicit false

namespace MarkupFilter.Grammar

/-! ## Trees -/

/-- The token is what its rule yields, the tokens directly inside stand one after the other within
it and are made by rules of the grammar that are not silent, and so it is inside of them. -/
inductive Token.IsTree (g : Grammar) : Token → Prop where
  | mk {name : String} {w : Window} {m : Match} (derived : g.Yields (.named name) w (some m))
      (ends_le : w.place + m.length ≤ w.limit)
      (named : ∀ c ∈ m.tokens, g.defines c.name = true ∧ isSilent c.name = false)
      (inOrder : m.InOrder w) (inside : ∀ c ∈ m.tokens, IsTree g c) :
      IsTree g (m.toToken name w)

/-- The match ends in its window, its tokens stand one after the other within it, are made by rules
of the grammar that are not silent, and are trees. -/
structure Match.MakesTrees (g : Grammar) (w : Window) (m : Match) : Prop where
  ends_le : w.place + m.length ≤ w.limit
  named : ∀ u ∈ m.tokens, g.defines u.name = true ∧ isSilent u.name = false
  inOrder : m.InOrder w
  trees : ∀ u ∈ m.tokens, u.IsTree g

section

variable {g : Grammar} {w : Window} {m n : Match} {name : String}

namespace Match.MakesTrees

theorem of_nil (hends : w.place + m.length ≤ w.limit) (h : m.tokens = []) : m.MakesTrees g w := by
  refine ⟨hends, ?_, .of_nil h, ?_⟩ <;> rw [h] <;> simp

theorem empty (hw : w.place ≤ w.limit) : Match.empty.MakesTrees g w :=
  of_nil hw rfl

theorem append (hm : m.MakesTrees g w) (hn : n.MakesTrees g (w.drop m.length)) :
    (m.append n).MakesTrees g w where
  ends_le := by
    have := hn.ends_le
    simp only [Window.place_drop, Window.limit_drop, Match.append] at this ⊢
    omega
  named u hu := (List.mem_append.1 hu).elim (hm.named u) (hn.named u)
  inOrder := hm.inOrder.append hn.inOrder
  trees u hu := (List.mem_append.1 hu).elim (hm.trees u) (hn.trees u)

theorem upTo {place : Nat} (h : m.MakesTrees g (w.upTo place)) : m.MakesTrees g w :=
  { h with
    ends_le := Nat.le_trans h.ends_le (Nat.min_le_right _ _)
    inOrder := h.inOrder.upTo }

/-- What is derived for a rule of the grammar and makes trees is a tree. -/
theorem toToken (h : m.MakesTrees g w) (hderived : g.Yields (.named name) w (some m)) :
    (m.toToken name w).IsTree g :=
  .mk hderived h.ends_le h.named h.inOrder h.trees

end Match.MakesTrees

theorem Yields.defines (h : g.Yields (.named name) w (some m)) : g.defines name = true := by
  cases h with
  | body hbody _ => rw [Grammar.defines, hbody, Option.isSome_some]

theorem Match.MakesTrees.named_of_yields (h : m.MakesTrees g w)
    (hderived : g.Yields (.named name) w (some m)) : (m.named name w).MakesTrees g w := by
  unfold Match.named
  split
  · exact h
  next hsilent =>
  refine ⟨h.ends_le, fun u hu => ?_, .toToken m name w, fun u hu => ?_⟩
  · obtain rfl := List.mem_singleton.1 hu
    exact ⟨hderived.defines, Bool.eq_false_iff.2 hsilent⟩
  · obtain rfl := List.mem_singleton.1 hu
    exact h.toToken hderived

/-- A match without tokens that fits its window. -/
theorem FitsWindow.makesTrees {once : Window → Option Match} (hfit : FitsWindow once)
    (htokens : ∀ m ∈ once w, m.tokens = []) (hw : w.place ≤ w.limit) :
    ∀ m ∈ once w, m.MakesTrees g w := by
  intro m hm
  have hle := hfit w m hm
  simp only [Window.size] at hle
  exact .of_nil (by omega) (htokens m hm)

theorem tokens_of_literal? {text : List Char} (h : m ∈ w.literal? text) : m.tokens = [] := by
  rw [Option.mem_def, Window.literal?_eq, Option.ite_none_right_eq_some, Option.some.injEq] at h
  rw [← h.2]

theorem tokens_of_char? {p : Char → Bool} (h : m ∈ w.char? p) : m.tokens = [] := by
  rw [Option.mem_def, Window.char?_eq, Option.ite_none_right_eq_some, Option.some.injEq] at h
  rw [← h.2]

/-- **The tokens of derived matches are trees.** The induction is on the derivation. -/
theorem Yields.makesTrees {part : Part} {o : Option Match} (h : g.Yields part w o)
    (hw : w.place ≤ w.limit) : ∀ m ∈ o, m.MakesTrees g w := by
  induction h with
  | undefined | notOnce | missing | noAlternative => exact fun _ hm => nomatch hm
  | body _ _ ih | one _ _ ih | zeroOrMore _ _ ih | sequence _ ih | choice _ ih
  | throughout _ _ _ ih | chosen _ ih | last _ _ ih => exact ih hw
  | oneOrMore _ _ _ _ ih | next _ _ _ ih => exact ih hw
  | @optional _ _ o _ _ ih =>
    rintro m ⟨⟩
    cases o with
    | none => exact .empty hw
    | some m => exact ih hw m rfl
  | noMore | noItem =>
    rintro m ⟨⟩
    exact .empty hw
  | again _ _ _ ih ihmore =>
    rintro m ⟨⟩
    have hfirst := ih hw _ rfl
    exact hfirst.append (ihmore hfirst.ends_le _ rfl)
  | literal =>
    exact (Window.fitsWindow_literal? _).makesTrees (fun _ => tokens_of_literal?) hw
  | charSet | charCode =>
    exact (Window.fitsWindow_char? _).makesTrees (fun _ => tokens_of_char?) hw
  | @upTo _ _ _ w n _ _ _ _ _ _ _ _ ih =>
    have hle : (w.upTo (w.place + n)).place ≤ (w.upTo (w.place + n)).limit := by
      simp only [Window.upTo]
      omega
    exact fun m hm => (ih hle m hm).upTo
  | reference h ih =>
    intro m hm
    obtain ⟨inner, rfl, rfl⟩ := Option.map_eq_some_iff.1 hm
    exact (ih hw inner rfl).named_of_yields h
  | item _ _ ih ihrest =>
    intro m hm
    have hfirst := ih hw _ rfl
    obtain ⟨more, rfl, rfl⟩ := Option.map_eq_some_iff.1 hm
    exact hfirst.append (ihrest hfirst.ends_le more rfl)

end

/-! ## Spans -/

/-- The token spans characters of `w` and is what its rule yields where it stands. The tokens
directly inside span parts of it, one after the other, and are made by rules of the grammar that are
not silent. -/
structure Token.Placed (g : Grammar) (w : Window) (t : Token) : Prop where
  isBoundary_start : Utf8.IsBoundary w.input.chars.toList t.start
  isBoundary_stop : Utf8.IsBoundary w.input.chars.toList t.stop
  start_ge : w.start ≤ t.start
  start_le_stop : t.start ≤ t.stop
  stop_le : t.stop ≤ w.stop
  derived : ∃ v m, g.Yields (.named t.name) v (some m) ∧ t = m.toToken t.name v
  named : ∀ c ∈ t.children, g.defines c.name = true ∧ isSilent c.name = false
  inside : ∀ c ∈ t.children, t.start ≤ c.start ∧ c.stop ≤ t.stop
  apart : t.children.Pairwise fun c d => c.stop ≤ d.start

section

variable {g : Grammar} {w v : Window} {t : Token} {m : Match} {name : String}

theorem Window.Within.start_le (h : v.Within w) : w.start ≤ v.start := by
  rw [Window.start, Window.start, h.input_eq]
  exact w.input.offset_mono h.place_le

theorem Window.Within.stop_le (h : v.Within w) : v.stop ≤ w.stop := by
  rw [Window.stop, Window.stop, h.input_eq]
  exact w.input.offset_mono h.limit_le

namespace Token.IsTree

theorem place_le (h : t.IsTree g) : t.window.place ≤ t.window.limit := by
  cases h with
  | mk _ hends _ _ _ =>
    simp only [Match.toToken, Window.upTo]
    omega

theorem placed (h : t.IsTree g) (hwithin : t.window.Within w) : t.Placed g w := by
  have hplace := h.place_le
  cases h with
  | @mk name v m hderived _ hnamed hin hinside =>
    have hinput : v.input = w.input := hwithin.input_eq
    refine
      { isBoundary_start := ?_
        isBoundary_stop := ?_
        start_ge := hwithin.start_le
        start_le_stop := v.input.offset_mono hplace
        stop_le := hwithin.stop_le
        derived := ⟨v, m, hderived, rfl⟩
        named := hnamed
        inside := fun c hc => ⟨(hin.within c hc).start_le, (hin.within c hc).stop_le⟩
        apart := ?_ }
    · exact hinput ▸ (m.toToken name v).window.isBoundary_start
    · exact hinput ▸ (m.toToken name v).window.isBoundary_stop
    · refine hin.apart.imp_of_mem fun {c d} hc hd hbefore => ?_
      rw [Token.stop, Token.start, Window.stop, Window.start, (hin.within c hc).input_eq,
        (hin.within d hd).input_eq]
      exact IndexedText.offset_mono _ hbefore

/-- All tokens inside a tree are trees within it. -/
theorem forall_rows (h : t.IsTree g) {depth : Nat} {row : Nat × Token}
    (hrow : row ∈ t.rows depth) : row.2.IsTree g ∧ row.2.window.Within t.window := by
  induction h generalizing depth with
  | mk hderived hends hnamed hin hinside ih =>
    rcases Token.mem_rows.1 hrow with rfl | ⟨c, hc, hrow⟩
    · exact ⟨.mk hderived hends hnamed hin hinside, rfl, Nat.le_refl _, Nat.le_refl _⟩
    · obtain ⟨htree, hwithin⟩ := ih c hc hrow
      exact ⟨htree, hwithin.trans (hin.within c hc)⟩

end Token.IsTree

/-- The token of a match is a tree within the window. -/
theorem isTree_of_matchAt (hg : g.LeftRecursionFree) (hw : w.place ≤ w.limit)
    (h : g.matchAt name w = some t) : t.IsTree g ∧ t.window.Within w := by
  obtain ⟨m, hderived, rfl⟩ := (matchAt_eq_some_iff hg).1 h
  exact ⟨(hderived.makesTrees hw m rfl).toToken hderived, rfl, Nat.le_refl _, Nat.min_le_right _ _⟩

/-- **Token trees are well formed.** In a grammar without left recursion, the token of a match
stands at the start of its window and has the name that was asked for. Each token in its tree spans
characters of the window, contains the tokens directly inside it one after the other, and is what
its own rule yields; below the root it is made by a rule of the grammar that is not silent. The tree
is that of the only outcome that can be derived, so no part that failed has a token in it. -/
theorem matchAt_placed (hg : g.LeftRecursionFree) (hw : w.place ≤ w.limit)
    (h : g.matchAt name w = some t) :
    t.name = name ∧ t.start = w.start ∧ (∀ row ∈ t.rows 0, row.2.Placed g w) ∧
      ∃ m, t = m.toToken name w ∧ ∀ o, g.Yields (.named name) w o ↔ o = some m := by
  obtain ⟨htree, hwithin⟩ := isTree_of_matchAt hg hw h
  obtain ⟨m, hderived, rfl⟩ := (matchAt_eq_some_iff hg).1 h
  refine ⟨rfl, rfl, fun row hrow => ?_, m, rfl, fun o => ⟨fun ho => ?_, fun ho => ho ▸ hderived⟩⟩
  · obtain ⟨hrowTree, hrowWithin⟩ := htree.forall_rows hrow
    exact hrowTree.placed (hrowWithin.trans hwithin)
  · exact ho.deterministic hderived

end

/-- Entries are words, alone or with a value. -/
def entryGrammar : Grammar :=
  ⟨[("entry", .choice .one [.reference .one "_pair", .reference .one "word"]),
    ("_pair", .sequence .one [.reference .one "word", .literal .one ['='], .reference .one "word"]),
    ("word", .charSet .oneOrMore ⟨[('a', 'z'), ('é', 'é')], false⟩)]⟩

theorem leftRecursionFree_entryGrammar : entryGrammar.LeftRecursionFree :=
  leftRecursionFree_of_ranked [] ["word", "_pair", "entry"] (by decide) (by decide)

/-- A pair is begun and given up before the `;`; its word is not in the tree twice. -/
theorem matchAt_placed_entry :
    let w : Window := ⟨.ofList ";né;".toList, 1, 4, by decide⟩
    entryGrammar.LeftRecursionFree ∧ w.place ≤ w.limit ∧
      ∃ t, entryGrammar.matchAt "entry" w = some t ∧
        ((t.rows 0).map fun row => (row.1, row.2.name, row.2.start, row.2.stop)) =
          [(0, "entry", 1, 4), (1, "word", 1, 4)] ∧
        t.name = "entry" ∧ t.start = w.start ∧ (∀ row ∈ t.rows 0, row.2.Placed entryGrammar w) ∧
        ∃ m, t = m.toToken "entry" w ∧
          ∀ o, entryGrammar.Yields (.named "entry") w o ↔ o = some m := by
  intro w
  have hfree := leftRecursionFree_entryGrammar
  have hrows : (entryGrammar.matchAt "entry" w).map
      (fun t => (t.rows 0).map fun row => (row.1, row.2.name, row.2.start, row.2.stop)) =
        some [(0, "entry", 1, 4), (1, "word", 1, 4)] := by decide
  obtain ⟨t, ht, hspans⟩ := Option.map_eq_some_iff.1 hrows
  exact ⟨hfree, by decide, t, ht, hspans, matchAt_placed hfree (by decide) ht⟩

end MarkupFilter.Grammar
