import MarkupFilter.Grammar.Meaning
import MarkupFilter.Proofs.Grammar.Remembering
import MarkupFilter.Proofs.Markup.Reader

/-!
# Matches that agree with a reader

The rules of markup are compared with the reader of `MarkupFilter.Proofs.Markup.Reader` one by one.
A match agrees with what a reader has read if both leave the same text unread, and if the tokens of
the match stand for what was read. Agreement of a sequence follows from agreement of its items.

## Main definitions

* `Agree` — a match and an outcome of a reader agree.

## Main results

* `Agree.cons` — agreement of sequences.
* `agree_literals`, `agree_zeroOrMore`, `agree_reference` — agreement of the simplest items.
-/

set_option autoImplicit false

namespace MarkupFilter.Markup

open Grammar

variable {α β : Type}

/-! ## Agreement -/

/-- The match and the outcome of a reader agree at `w`: both fail, or both leave the same text and
`ok` relates the match to what was read. -/
def Agree (ok : Match → α → Prop) (w : Window) : Option Match → Option (α × List Char) → Prop
  | none, none => True
  | some m, some (a, rest) => m.length ≤ w.size ∧ (w.drop m.length).text = rest ∧ ok m a
  | _, _ => False

namespace Agree

variable {ok : Match → α → Prop} {w : Window} {m? : Option Match} {r? : Option (α × List Char)}

theorem of_none (hm : m? = none) (hr : r? = none) : Agree ok w m? r? := by
  subst hm hr
  trivial

theorem of_some (m : Match) {a : α} (rest : List Char) (hm : m? = some m)
    (hr : r? = some (a, rest)) (hle : m.length ≤ w.size) (hrest : (w.drop m.length).text = rest)
    (hok : ok m a) : Agree ok w m? r? := by
  subst hm hr
  exact ⟨hle, hrest, hok⟩

theorem cases (h : Agree ok w m? r?) : (m? = none ∧ r? = none) ∨
    ∃ m a, m? = some m ∧ r? = some (a, (w.drop m.length).text) ∧ m.length ≤ w.size ∧ ok m a := by
  match m?, r?, h with
  | none, none, _ => exact .inl ⟨rfl, rfl⟩
  | some m, some (a, rest), ⟨hle, hrest, hok⟩ =>
    exact .inr ⟨m, a, rfl, by rw [hrest], hle, hok⟩

/-- What was read may be changed along with the relation. -/
theorem map {ok' : Match → β → Prop} (h : Agree ok w m? r?) (f : α → β)
    (hf : ∀ m a, m.length ≤ w.size → ok m a → ok' m (f a)) :
    Agree ok' w m? (r?.map fun p => (f p.1, p.2)) := by
  rcases h.cases with ⟨rfl, rfl⟩ | ⟨m, a, rfl, rfl, hle, hok⟩
  · trivial
  · exact ⟨hle, rfl, hf m a hle hok⟩

/-- A last step of the reader that reads nothing. -/
theorem bind {ok' : Match → β → Prop} {k : α × List Char → Option (β × List Char)}
    (h : Agree ok w m? r?)
    (hk : ∀ m a, ok m a → ∃ b, ok' m b ∧ ∀ rest, k (a, rest) = some (b, rest)) :
    Agree ok' w m? (r?.bind k) := by
  rcases h.cases with ⟨rfl, rfl⟩ | ⟨m, a, rfl, rfl, hle, hok⟩
  · trivial
  · obtain ⟨b, hb, hrest⟩ := hk m a hok
    rw [Option.bind_some, hrest]
    exact ⟨hle, rfl, hb⟩

theorem imp {ok' : Match → α → Prop} (h : Agree ok w m? r?)
    (hf : ∀ m a, m.length ≤ w.size → ok m a → ok' m a) : Agree ok' w m? r? := by
  rcases h.cases with ⟨rfl, rfl⟩ | ⟨m, a, rfl, rfl, hle, hok⟩
  · trivial
  · exact ⟨hle, rfl, hf m a hle hok⟩

/-- The relation may include what the reader has read. -/
theorem reads (h : Agree ok w m? r?) :
    Agree (fun m a => ok m a ∧ r? = some (a, (w.drop m.length).text)) w m? r? := by
  rcases h.cases with ⟨rfl, rfl⟩ | ⟨m, a, rfl, rfl, hle, hok⟩
  · trivial
  · exact ⟨hle, rfl, hok, rfl⟩

end Agree

section

variable {spec : String → Window → Option Match}

/-- A rule that is to match once is a step under the simplest quantifier. -/
theorem Agree.sequence {ok : Match → α → Prop} {items : List Rule} {w : Window}
    {r? : Option (α × List Char)} (h : Agree ok w (Rule.matchesAll? spec items w) r?) :
    Agree ok w (Rule.matches? spec (.sequence .one items) w) r? := by
  rwa [Rule.matches?, Quantifier.matches?]

/-- **Agreement of a sequence**: its first item agrees with the first step of a reader, and its
other items agree with the next step, wherever the first one has ended. -/
theorem Agree.cons {ok₁ : Match → α → Prop} {ok : Match → β → Prop} {item : Rule}
    {items : List Rule} {w : Window} {r? : Option (α × List Char)}
    {k : α × List Char → Option (β × List Char)}
    (h₁ : Agree ok₁ w (Rule.matches? spec item w) r?)
    (h₂ : ∀ m a, m.length ≤ w.size → ok₁ m a →
      Agree (fun m' b => ok (m.append m') b) (w.drop m.length)
        (Rule.matchesAll? spec items (w.drop m.length)) (k (a, (w.drop m.length).text))) :
    Agree ok w (Rule.matchesAll? spec (item :: items) w) (r?.bind k) := by
  rw [Rule.matchesAll?]
  rcases h₁.cases with ⟨hm, rfl⟩ | ⟨m, a, hm, rfl, hle, hok⟩
  · rw [hm]
    trivial
  · rw [hm]
    rcases (h₂ m a hle hok).cases with ⟨hm', hk⟩ | ⟨m', b, hm', hk, hle', hok'⟩
    · simp only [hm', Option.map_none, Option.bind_some, hk]
      trivial
    · refine Agree.of_some (m.append m') _ (by simp only [hm', Option.map_some])
        (by rw [Option.bind_some, hk]) ?_ ?_ hok'
      · rw [Window.size_drop] at hle'
        simp only [Match.append]
        omega
      · simp only [Match.append, Window.text_drop, List.drop_drop]

/-- A sequence whose first item is read without fail. -/
theorem Agree.cons_some {ok₁ : Match → α → Prop} {ok : Match → β → Prop} {item : Rule}
    {items : List Rule} {w : Window} {a : α} {rest : List Char}
    {s? : Option (β × List Char)}
    (h₁ : Agree ok₁ w (Rule.matches? spec item w) (some (a, rest)))
    (h₂ : ∀ m, m.length ≤ w.size → ok₁ m a → (w.drop m.length).text = rest →
      Agree (fun m' b => ok (m.append m') b) (w.drop m.length)
        (Rule.matchesAll? spec items (w.drop m.length)) s?) :
    Agree ok w (Rule.matchesAll? spec (item :: items) w) s? := by
  rcases h₁.cases with ⟨-, hr⟩ | ⟨m, a', hm, hr, hle, hok⟩
  · cases hr
  · cases hr
    have hitem : Agree (fun m' _ => m' = m) w (Rule.matches? spec item w)
        (some ((), (w.drop m.length).text)) := by
      rw [hm]
      exact ⟨hle, rfl, rfl⟩
    refine hitem.cons (k := fun _ => s?) ?_
    rintro _ _ _ rfl
    exact h₂ _ hle hok rfl

theorem Agree.nil {ok : Match → α → Prop} {w : Window} {a : α} (hok : ok .empty a) :
    Agree ok w (Rule.matchesAll? spec [] w) (some (a, w.text)) := by
  rw [Rule.matchesAll?]
  exact ⟨Nat.zero_le _, by simp [Match.empty], hok⟩

/-- The last item of a sequence. -/
theorem Agree.last {ok : Match → α → Prop} {item : Rule} {w : Window}
    {r? : Option (α × List Char)} (h : Agree ok w (Rule.matches? spec item w) r?) :
    Agree ok w (Rule.matchesAll? spec [item] w) r? := by
  rwa [Rule.matchesAll?_singleton]

end

/-! ## Texts of tokens -/

theorem text_whole (cs : List Char) : (Window.whole cs).text = cs := by
  simp [Window.whole, Window.text_eq, Window.size, IndexedText.ofList, IndexedText.size]

theorem text_toToken (m : Match) (name : String) (w : Window) :
    (m.toToken name w).text = String.ofList (w.text.take m.length) := by
  rw [Token.text, Match.toToken, Window.text_upTo, Nat.add_sub_cancel_left]

theorem text_toToken_eq_consumed {m : Match} {w : Window} (name : String)
    (hle : m.length ≤ w.size) :
    (m.toToken name w).text = Reader.consumed w.text (w.drop m.length).text := by
  rw [text_toToken, Reader.consumed, Window.length_text, Window.length_text, Window.size_drop,
    Nat.sub_sub_self hle]

/-! ## Characters and literals -/

theorem any_singles (singles : List Char) (c : Char) :
    ((singles.map fun c => (c, c)).any fun (low, high) => low ≤ c && c ≤ high) =
      singles.contains c := by
  rw [Bool.eq_iff_iff, List.any_eq_true, List.contains_iff_mem]
  constructor
  · rintro ⟨⟨low, high⟩, hmem, h⟩
    obtain ⟨d, hd, heq⟩ := List.mem_map.1 hmem
    cases heq
    simp only [Bool.and_eq_true, decide_eq_true_iff] at h
    rwa [Char.le_antisymm h.2 h.1]
  · intro hc
    exact ⟨(c, c), List.mem_map.2 ⟨c, hc, rfl⟩, by simp⟩

theorem contains_noneOf (singles : List Char) (c : Char) :
    CharSet.contains ⟨singles.map fun c => (c, c), true⟩ c = !singles.contains c := by
  rw [CharSet.contains, any_singles, Bool.bne_true]

theorem contains_oneOf (singles : List Char) (c : Char) :
    CharSet.contains ⟨singles.map fun c => (c, c), false⟩ c = singles.contains c := by
  rw [CharSet.contains, any_singles, Bool.bne_false]

/-- A literal at the start of a sequence. -/
theorem Agree.cons_literal {spec : String → Window → Option Match} {ok : Match → β → Prop}
    {start : List Char} {items : List Rule} {w : Window}
    {k : List Char → Option (β × List Char)}
    (h : start.length ≤ w.size → w.text = start ++ (w.drop start.length).text →
      Agree (fun m' b => ok ((⟨start.length, []⟩ : Match).append m') b) (w.drop start.length)
        (Rule.matchesAll? spec items (w.drop start.length)) (k (w.drop start.length).text)) :
    Agree ok w (Rule.matchesAll? spec (.literal .one start :: items) w)
      ((Reader.after? start w.text).bind k) := by
  rw [Rule.matchesAll?, Rule.matches?, Quantifier.matches?, Window.literal?_eq, Reader.after?]
  by_cases hp : start.isPrefixOf w.text = true
  · obtain ⟨rest, hrest⟩ := List.isPrefixOf_iff_prefix.1 hp
    have hdrop : (w.drop start.length).text = rest := by
      rw [Window.text_drop, ← hrest, List.drop_left]
    have hle : start.length ≤ w.size := by
      rw [← Window.length_text, ← hrest, List.length_append]
      omega
    rw [if_pos hp, if_pos hp, Option.bind_some, ← Window.text_drop]
    rcases (h hle (by rw [hdrop, hrest])).cases with ⟨hm, hk⟩ | ⟨m, b, hm, hk, hle', hok⟩
    · simp only [hm, hk]
      trivial
    · refine Agree.of_some _ _ (by simp only [hm, Option.map_some]) hk ?_ ?_ hok
      · rw [Window.size_drop] at hle'
        simp only [Match.append]
        omega
      · simp only [Match.append, Window.text_drop, List.drop_drop]
  · rw [if_neg hp, if_neg hp]
    trivial

/-- A literal at the end of a sequence. -/
theorem Agree.last_literal {spec : String → Window → Option Match} {ok : Match → β → Prop}
    {start : List Char} {w : Window} {b : β} (hok : ok ⟨start.length, []⟩ b) :
    Agree ok w (Rule.matchesAll? spec [.literal .one start] w)
      ((Reader.after? start w.text).map fun rest => (b, rest)) := by
  rw [Option.map_eq_bind]
  exact Agree.cons_literal fun _ _ => Agree.nil hok

/-- A choice of literals agrees with the first of them that the text begins with. -/
theorem agree_literals {spec : String → Window → Option Match} (starts : List (List Char))
    (w : Window) :
    Agree (fun m _ => m.tokens = []) w
      (Rule.matches? spec (.choice .one (starts.map (.literal .one))) w)
      ((Reader.afterOne? starts w.text).map fun rest => ((), rest)) := by
  rw [Rule.matches?, Quantifier.matches?]
  induction starts with
  | nil => exact Agree.of_none (by rw [List.map_nil, Rule.matchesFirst?]) rfl
  | cons start starts ih =>
    have hfirst : Agree (fun m _ => m.tokens = []) w (w.literal? start)
        ((Reader.after? start w.text).map fun rest => ((), rest)) := by
      have : Agree (fun m (_ : Unit) => m.tokens = []) w
          (Rule.matchesAll? spec [.literal .one start] w)
          ((Reader.after? start w.text).map fun rest => ((), rest)) := Agree.last_literal rfl
      rwa [Rule.matchesAll?_singleton, Rule.matches?, Quantifier.matches?] at this
    rw [List.map_cons, Rule.matchesFirst?, Rule.matches?, Quantifier.matches?, Reader.afterOne?,
      List.findSome?_cons]
    rcases hfirst.cases with ⟨hm, hr⟩ | ⟨m, a, hm, hr, hle, hok⟩
    · rw [Option.map_eq_none_iff] at hr
      rw [hm, hr]
      exact ih
    · obtain ⟨rest, hrest, heq⟩ := Option.map_eq_some_iff.1 hr
      rw [hm, hrest]
      cases heq
      exact ⟨hle, rfl, hok⟩

/-- A choice of literals at the start of a sequence. -/
theorem Agree.cons_literals {spec : String → Window → Option Match} {ok : Match → β → Prop}
    (starts : List (List Char)) {items : List Rule} {w : Window}
    {k : List Char → Option (β × List Char)}
    (h : ∀ m : Match, m.tokens = [] →
      Agree (fun m' b => ok (m.append m') b) (w.drop m.length)
        (Rule.matchesAll? spec items (w.drop m.length)) (k (w.drop m.length).text)) :
    Agree ok w
      (Rule.matchesAll? spec (.choice .one (starts.map (.literal .one)) :: items) w)
      ((Reader.afterOne? starts w.text).bind k) := by
  have := (agree_literals starts w).cons (k := fun p => k p.2) fun m _ _ hm => h m hm
  rwa [Option.bind_map] at this

/-! ## What was consumed -/

/-- The text of the whole match may be used for what was read. -/
theorem Agree.consumed {ok : Match → α → Prop} {w : Window} {m? : Option Match}
    {r? : Option (α × List Char)} (h : Agree ok w m? r?) (name : String) (f : α → String → β) :
    Agree (fun m b => ∃ a, ok m a ∧ b = f a (m.toToken name w).text) w m?
      (r?.map fun p => (f p.1 (Reader.consumed w.text p.2), p.2)) := by
  rcases h.cases with ⟨rfl, rfl⟩ | ⟨m, a, rfl, rfl, hle, hok⟩
  · trivial
  · exact ⟨hle, rfl, a, hok, by rw [text_toToken_eq_consumed name hle]⟩

/-! ## Rows of characters -/

theorem repeated_char? (p : Char → Bool) (fuel : Nat) (w : Window) (h : w.size < fuel) :
    repeated (fun w => w.char? p) fuel w =
      ⟨(w.text.takeWhile p).length, ⟨(w.text.takeWhile p).length, []⟩⟩ := by
  induction fuel generalizing w with
  | zero => omega
  | succ fuel ih =>
    rw [repeated, Window.char?_eq]
    cases htext : w.text with
    | nil => rfl
    | cons c cs =>
      have hsize : w.size = cs.length + 1 := by rw [← Window.length_text, htext, List.length_cons]
      by_cases hc : p c = true
      · have hrest : (w.drop 1).text = cs := by rw [Window.text_drop, htext]; rfl
        rw [List.head?_cons, Option.any_some, if_pos hc]
        simp only [Nat.one_ne_zero, if_false]
        rw [ih _ (by rw [Window.size_drop]; omega), hrest, List.takeWhile_cons_of_pos hc]
        simp [Match.append, Nat.add_comm]
      · rw [List.head?_cons, Option.any_some, if_neg hc, List.takeWhile_cons_of_neg hc]
        rfl

/-- The match of a row of characters takes exactly the characters read, and has no tokens. -/
def IsRow (w : Window) (m : Match) (cs : List Char) : Prop :=
  m.tokens = [] ∧ w.text.take m.length = cs

theorem IsRow.append {w : Window} {m n : Match} {cs ds : List Char} (hm : IsRow w m cs)
    (hn : IsRow (w.drop m.length) n ds) : IsRow w (m.append n) (cs ++ ds) := by
  refine ⟨?_, ?_⟩
  · simp only [Match.append, hm.1, hn.1, List.append_nil]
  · rw [Match.append, List.take_add, hm.2, ← Window.text_drop, hn.2]

theorem IsRow.text_toToken {w : Window} {m : Match} {cs : List Char} (h : IsRow w m cs)
    (name : String) : (m.toToken name w).text = String.ofList cs := by
  rw [Markup.text_toToken, h.2]

theorem isRow_takeWhile (p : Char → Bool) (w : Window) :
    IsRow w ⟨(w.text.takeWhile p).length, []⟩ (w.text.takeWhile p) :=
  ⟨rfl, (List.prefix_iff_eq_take.1 (List.takeWhile_prefix p)).symm⟩

theorem length_takeWhile_le_size (p : Char → Bool) (w : Window) :
    (w.text.takeWhile p).length ≤ w.size := by
  rw [← Window.length_text]
  exact (List.takeWhile_sublist p).length_le

theorem text_drop_takeWhile (p : Char → Bool) (w : Window) :
    (w.drop (w.text.takeWhile p).length).text = w.text.dropWhile p := by
  have h := List.takeWhile_append_dropWhile (p := p) (l := w.text)
  rw [Window.text_drop]
  exact (List.append_cancel_left ((List.prefix_iff_eq_append.1 (List.takeWhile_prefix p)).trans
    h.symm))

/-- Any number of characters, or at least one, that satisfy `p`. -/
theorem agree_zeroOrMore {p : Char → Bool} {once : Window → Option Match}
    (honce : ∀ w, once w = w.char? p) (w : Window) :
    Agree (IsRow w) w (Quantifier.zeroOrMore.matches? once w)
      (some (w.text.takeWhile p, w.text.dropWhile p)) := by
  obtain rfl : once = fun w => w.char? p := funext honce
  refine Agree.of_some _ _ (by rw [Quantifier.matches?, repeated_char? p _ w (Nat.lt_succ_self _)])
    rfl ?_ ?_ (isRow_takeWhile p w)
  · exact length_takeWhile_le_size p w
  · exact text_drop_takeWhile p w

theorem agree_oneOrMore {p : Char → Bool} {once : Window → Option Match}
    (honce : ∀ w, once w = w.char? p) (w : Window) :
    Agree (IsRow w) w (Quantifier.oneOrMore.matches? once w) (Reader.row? p w.text) := by
  obtain rfl : once = fun w => w.char? p := funext honce
  rw [Quantifier.matches?, repeated_char? p _ w (Nat.lt_succ_self _), Reader.row?]
  cases htake : w.text.takeWhile p with
  | nil => trivial
  | cons c cs =>
    rw [← htake]
    refine Agree.of_some ⟨(w.text.takeWhile p).length, []⟩ (w.text.dropWhile p)
      ?_ ?_ ?_ ?_ (isRow_takeWhile p w)
    · rw [htake]
      rfl
    · rw [htake]
      rfl
    · exact length_takeWhile_le_size p w
    · exact text_drop_takeWhile p w

/-- One character that satisfies `p`. -/
theorem agree_char (p : Char → Bool) (w : Window) :
    Agree (fun m c => IsRow w m [c]) w (w.char? p) (Reader.char? p w.text) := by
  rw [Window.char?_eq]
  cases htext : w.text with
  | nil => trivial
  | cons c cs =>
    rw [List.head?_cons, Option.any_some]
    by_cases hc : p c = true
    · rw [if_pos hc]
      simp only [Reader.char?, hc, if_true]
      refine ⟨?_, ?_, rfl, by rw [htext]; rfl⟩
      · rw [← Window.length_text, htext, List.length_cons]
        exact Nat.succ_le_succ (Nat.zero_le _)
      · rw [Window.text_drop, htext]
        rfl
    · rw [if_neg hc, Reader.char?, if_neg hc]
      trivial

/-! ## Choices -/

/-- The first alternative that matches agrees with the first reader that succeeds. -/
theorem Agree.first {spec : String → Window → Option Match} {ok : Match → α → Prop}
    {alternative : Rule} {rest : List Rule} {w : Window} {r? s? : Option (α × List Char)}
    (h₁ : Agree ok w (Rule.matches? spec alternative w) r?)
    (h₂ : Agree ok w (Rule.matchesFirst? spec rest w) s?) :
    Agree ok w (Rule.matchesFirst? spec (alternative :: rest) w) (r? <|> s?) := by
  rw [Rule.matchesFirst?]
  rcases h₁.cases with ⟨hm, rfl⟩ | ⟨m, a, hm, rfl, hle, hok⟩
  · rw [hm]
    exact h₂
  · rw [hm]
    exact ⟨hle, rfl, hok⟩

/-- The last alternative of a choice. -/
theorem Agree.last_first {spec : String → Window → Option Match} {ok : Match → α → Prop}
    {alternative : Rule} {w : Window} {r? : Option (α × List Char)}
    (h : Agree ok w (Rule.matches? spec alternative w) r?) :
    Agree ok w (Rule.matchesFirst? spec [alternative] w) r? := by
  have hnone : Agree ok w (Rule.matchesFirst? spec [] w) none :=
    Agree.of_none (by rw [Rule.matchesFirst?]) rfl
  have := h.first hnone
  rwa [Option.orElse_eq_orElse, Option.orElse_eq_or, Option.or_none] at this

/-- An optional item is read if it can be. -/
theorem Agree.optional {ok : Match → α → Prop} {once : Window → Option Match} {w : Window}
    {r? : Option (α × List Char)} (h : Agree ok w (once w) r?) :
    Agree (fun m a? => (m = .empty ∧ a? = none) ∨ ∃ a, a? = some a ∧ ok m a) w
      (Quantifier.optional.matches? once w)
      (some ((r?.map Prod.fst), (r?.map Prod.snd).getD w.text)) := by
  rw [Quantifier.matches?]
  rcases h.cases with ⟨hm, rfl⟩ | ⟨m, a, hm, rfl, hle, hok⟩
  · rw [hm]
    exact ⟨Nat.zero_le _, by simp [Match.empty], .inl ⟨rfl, rfl⟩⟩
  · rw [hm]
    exact ⟨hle, rfl, .inr ⟨a, rfl, hok⟩⟩

/-! ## References -/

/-- The match of a reference is one token, which stands for what the body has matched. -/
def IsToken (name : String) (w : Window) (ok : Match → α → Prop) (m : Match) (a : α) : Prop :=
  ∃ body, ok body a ∧ m = ⟨body.length, [body.toToken name w]⟩

theorem agree_reference {spec : String → Window → Option Match} {ok : Match → α → Prop}
    {name : String} {w : Window} {r? : Option (α × List Char)} (hname : isSilent name = false)
    (h : Agree ok w (spec name w) r?) :
    Agree (IsToken name w ok) w (Rule.matches? spec (.reference .one name) w) r? := by
  rw [Rule.matches?, Quantifier.matches?]
  rcases h.cases with ⟨hm, rfl⟩ | ⟨m, a, hm, rfl, hle, hok⟩
  · rw [hm]
    trivial
  · rw [hm, Option.map_some, Match.named, hname]
    exact ⟨hle, rfl, m, hok, rfl⟩

end MarkupFilter.Markup
