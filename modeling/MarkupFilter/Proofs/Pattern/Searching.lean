import MarkupFilter.Pattern.Basic
import MarkupFilter.Proofs.Pattern.Counting

/-!
# Whatever matches is found

The machine of an expression finds every span that the expression describes, and so a search comes
upon it: if any part of a text matches a pattern, the pattern occurs in the text.

## Main results

* `Expression.Matches.exists_repeated` — a repetition matches what is made of matches of its body.
* `Expression.finds_machine` — the machine of an expression finds its matches.
* `Machine.occursIn_of_finds` — a search comes upon what its machine finds.
* `occursIn_of_matches` — a pattern occurs where it matches.
-/

set_option autoImplicit false

namespace MarkupFilter.Pattern

/-! ## Texts -/

/-- The scan of a text. -/
def Scan.ofText (text : List Char) : Scan where
  place := Place.ofIndex text
  code i := (text[i]?.map Char.toNat).getD 0

namespace Machine

variable {m : Machine} {text : List Char}

/-- The state of a search after `i` characters of the text. -/
def stateAt (m : Machine) (text : List Char) (i : Nat) : SearchState :=
  ⟨Place.ofIndex text i, (Scan.ofText text).marks m (fun _ => 1) i⟩

theorem start_eq (m : Machine) (text : List Char) : start text = m.stateAt text 0 := by
  rw [start, List.head?_eq_getElem?]
  rfl

theorem next_stateAt {i : Nat} {c : Char} {rest : List Char} (h : text.drop i = c :: rest) :
    m.next (m.stateAt text i) c.toNat (.ofChar? rest.head?) = m.stateAt text (i + 1) := by
  have hc : text[i]? = some c := by rw [← List.head?_drop, h]; rfl
  have hrest : text[i + 1]? = rest.head? := by
    rw [← List.head?_drop, ← List.drop_drop, h]
    rfl
  have hbefore : (text.take (i + 1)).getLast? = some c := by
    rw [List.take_add_one, hc, Option.toList_some, List.getLast?_append]
    rfl
  have hplace : (⟨(m.stateAt text i).place.after, .ofChar? rest.head?⟩ : Place) =
      Place.ofIndex text (i + 1) := by
    rw [Place.ofIndex, hbefore, hrest, ← hc]
    rfl
  have hcode : (Scan.ofText text).code i = c.toNat := by
    show (text[i]?.map Char.toNat).getD 0 = _
    rw [hc]
    rfl
  have hmarks : (Scan.ofText text).marks m (fun _ => 1) (i + 1) =
      m.shift (Place.ofIndex text i) (Place.ofIndex text (i + 1)) c.toNat 1
        (m.stateAt text i).marks := by
    rw [Scan.marks, hcode]
    rfl
  rw [next, hplace]
  exact congrArg (SearchState.mk _) hmarks.symm

/-- A search goes on until a match ends. -/
theorem occursFrom_of_found {i j : Nat} (hle : i ≤ j) (hj : j ≤ text.length)
    (hfound : m.found (m.stateAt text j) = true) :
    m.occursFrom (m.stateAt text i) (text.drop i) = true := by
  induction hn : j - i generalizing i with
  | zero =>
    obtain rfl : i = j := by omega
    cases text.drop i with
    | nil => exact hfound
    | cons c rest => rw [occursFrom, if_pos hfound]
  | succ n ih =>
    cases hdrop : text.drop i with
    | nil =>
      have := List.drop_eq_nil_iff.1 hdrop
      omega
    | cons c rest =>
      have hrest : rest = text.drop (i + 1) := by
        rw [← List.drop_drop, hdrop]
        rfl
      rw [occursFrom, next_stateAt hdrop, hrest]
      split
      · rfl
      · exact ih (by omega) (by omega)

/-- **A search comes upon what its machine finds.** -/
theorem occursIn_of_finds {spans : Nat → Nat → Prop} (h : Finds (Scan.ofText text) 1 m spans)
    {i j : Nat} (hspan : spans i j) (hj : j ≤ text.length) : m.occursIn text = true := by
  have hfound : m.found (m.stateAt text j) = true := by
    rw [found, Bool.or_eq_true]
    rcases Nat.eq_or_lt_of_le (h.le i j hspan) with rfl | hlt
    · exact .inl (h.nullable i hspan)
    · have hended := h.ended (fun _ => 1) (fun _ => by decide) i j 0 hlt hspan rfl
      refine .inr (bne_iff_ne.2 fun hzero => ?_)
      rw [show (m.stateAt text j).marks = (Scan.ofText text).marks m (fun _ => 1) j from rfl] at hzero
      rw [hzero] at hended
      cases hended
  rw [occursIn_eq, start_eq m]
  exact occursFrom_of_found (Nat.zero_le j) hj hfound

end Machine

/-! ## Expressions -/

namespace Expression

open Finds (InRow Repeated)

variable {text : List Char}

theorem Matches.le {e : Expression} {i j : Nat} (h : Matches text e i j) :
    i ≤ j ∧ j ≤ text.length := by
  induction h with
  | literal cs i hi hprefix =>
    have := hprefix.length_le
    rw [List.length_drop] at this
    omega
  | chars set i c hc _ =>
    have := (List.getElem?_eq_some_iff.1 hc).1
    omega
  | anchor a i hi _ => exact ⟨Nat.le_refl i, hi⟩
  | group number body i j _ ih => exact ih
  | concat_nil i hi => exact ⟨Nat.le_refl i, hi⟩
  | concat_cons e es i j k _ _ ihe ihes => exact ⟨Nat.le_trans ihe.1 ihes.1, ihes.2⟩
  | either es e i j _ _ ih => exact ih
  | times_none body max i hi => exact ⟨Nat.le_refl i, hi⟩
  | times_required body min max i j k _ _ ih ihs => exact ⟨Nat.le_trans ih.1 ihs.1, ihs.2⟩
  | times_further body i j k _ _ ih ihs => exact ⟨Nat.le_trans ih.1 ihs.1, ihs.2⟩
  | times_allowed body max i j k _ _ ih ihs => exact ⟨Nat.le_trans ih.1 ihs.1, ihs.2⟩

/-! ### Repetitions -/

theorem repeated_cons {spans : Nat → Nat → Prop} {n i j k : Nat} (hspan : spans i j)
    (hspans : Repeated spans n j k) : Repeated spans (n + 1) i k := by
  induction n generalizing k with
  | zero =>
    obtain rfl : j = k := hspans
    exact ⟨i, rfl, hspan⟩
  | succ n ih =>
    obtain ⟨l, hspans, hlast⟩ := hspans
    exact ⟨l, ih hspans, hlast⟩

/-- **A repetition matches what is made of matches of its body**, as many as it says. -/
theorem Matches.exists_repeated {body : Expression} {min : Nat} {max : Option Nat} {i j : Nat}
    (h : Matches text (.times body min max) i j) :
    ∃ n, min ≤ n ∧ (∀ m, max = some m → n ≤ m) ∧ Repeated (Matches text body) n i j := by
  generalize he : Expression.times body min max = e at h
  induction h generalizing body min max with
  | times_none body' max' i hi =>
    cases he
    exact ⟨0, Nat.le_refl 0, fun m _ => Nat.zero_le m, rfl⟩
  | times_required body' min' max' i j k hfirst _ _ ih =>
    cases he
    obtain ⟨n, hmin, hmax, hspans⟩ := ih rfl
    refine ⟨n + 1, Nat.succ_le_succ hmin, fun m hm => ?_, repeated_cons hfirst hspans⟩
    obtain ⟨m', hm', rfl⟩ := Option.map_eq_some_iff.1 hm
    exact Nat.succ_le_succ (hmax m' hm')
  | times_further body' i j k hfirst _ _ ih =>
    cases he
    obtain ⟨n, -, -, hspans⟩ := ih rfl
    exact ⟨n + 1, Nat.zero_le _, (fun m hm => nomatch hm), repeated_cons hfirst hspans⟩
  | times_allowed body' max' i j k hfirst _ _ ih =>
    cases he
    obtain ⟨n, -, hmax, hspans⟩ := ih rfl
    refine ⟨n + 1, Nat.zero_le _, fun m hm => ?_, repeated_cons hfirst hspans⟩
    cases hm
    exact Nat.succ_le_succ (hmax max' rfl)
  | _ => cases he

/-! ### Words -/

theorem spells_single {cs : List Char} {i : Nat} (h : cs <+: text.drop i) :
    SetWord.Spells (Scan.ofText text).code (cs.map CharClass.single) i (i + cs.length) := by
  induction cs generalizing i with
  | nil => rfl
  | cons c cs ih =>
    obtain ⟨rest, hrest⟩ := h
    have hc : text[i]? = some c := by
      rw [← List.head?_drop, ← hrest]
      rfl
    refine ⟨?_, ?_⟩
    · show (CharClass.single c).containsCode ((text[i]?.map Char.toNat).getD 0) = true
      rw [hc]
      exact (CharClass.contains_single c c).trans (beq_self_eq_true c)
    · have hnext : cs <+: text.drop (i + 1) := by
        refine ⟨rest, ?_⟩
        rw [← List.drop_drop, ← hrest]
        rfl
      have hspelled := ih hnext
      rwa [show i + 1 + cs.length = i + (c :: cs).length by rw [List.length_cons]; omega] at hspelled

theorem spells_chars {s : CharClass} {i j : Nat} (h : Matches text (.chars s) i j) :
    SetWord.Spells (Scan.ofText text).code [s] i j := by
  cases h with
  | chars set i c hc hset =>
    refine ⟨?_, rfl⟩
    show s.containsCode ((text[i]?.map Char.toNat).getD 0) = true
    rw [hc]
    exact hset

mutual

/-- The word that an expression is spells out its matches. -/
theorem spells_setWord? : ∀ (e : Expression) {word : SetWord}, e.setWord? = some word →
    word ≠ [] ∧ ∀ i j, Matches text e i j → word.Spells (Scan.ofText text).code i j
  | .literal cs, word, h => by
    rw [setWord?] at h
    split at h
    · cases h
    · next hne =>
      cases h
      refine ⟨fun hnil => hne (by simpa using hnil), fun i j hmatch => ?_⟩
      cases hmatch with
      | literal cs i _ hprefix => exact spells_single hprefix
  | .chars s, word, h => by
    cases h
    exact ⟨List.cons_ne_nil _ _, fun i j => spells_chars⟩
  | .anchor _, _, h => nomatch h
  | .group _ body, word, h => by
    obtain ⟨hne, hspells⟩ := spells_setWord? body h
    refine ⟨hne, fun i j hmatch => ?_⟩
    cases hmatch with
    | group _ _ i j hbody => exact hspells i j hbody
  | .times .., _, h => nomatch h
  | .concat es, word, h => by
    obtain ⟨hne, hspells⟩ := spells_setWordOfAll? es [] h
    exact ⟨hne, fun i j hmatch => hspells i i j rfl hmatch⟩
  | .either _, _, h => nomatch h

/-- The word that a row of expressions is after another word. -/
theorem spells_setWordOfAll? : ∀ (es : List Expression) (before : SetWord) {word : SetWord},
    setWordOfAll? before es = some word → word ≠ [] ∧ ∀ i j k,
      SetWord.Spells (Scan.ofText text).code before.reverse i j → Matches text (.concat es) j k →
        word.Spells (Scan.ofText text).code i k
  | [], before, word, h => by
    rw [setWordOfAll?] at h
    split at h
    · cases h
    · next hne =>
      cases h
      refine ⟨fun hnil => hne (by simpa using hnil), fun i j k hbefore hmatch => ?_⟩
      cases hmatch with
      | concat_nil i _ => exact hbefore
  | e :: es, before, word, h => by
    rw [setWordOfAll?] at h
    split at h
    · next next he =>
      obtain ⟨hne, hspells⟩ := spells_setWordOfAll? es _ h
      refine ⟨hne, fun i j k hbefore hmatch => ?_⟩
      cases hmatch with
      | concat_cons _ _ _ l _ hfirst hrest =>
        refine hspells i l k ?_ hrest
        rw [List.reverseAux_eq, List.reverse_append, List.reverse_reverse]
        exact hbefore.append ((spells_setWord? e he).2 j l hfirst)
    · cases h

end

/-! ### Machines -/

/-- When the word that is being collected is finished, the machines find it after what they have
found. -/
theorem finishWord_spec {w : Nat} (word : SetWord) {parts : List (Machine × (Nat → Nat → Prop))}
    (hparts : ∀ part ∈ parts, Finds (Scan.ofText text) w part.1 part.2) :
    ∃ finished : List (Machine × (Nat → Nat → Prop)),
      finishWord w word (parts.map Prod.fst).reverse = (finished.map Prod.fst).reverse ∧
        (∀ part ∈ finished, Finds (Scan.ofText text) w part.1 part.2) ∧
        ∀ i j k, InRow (parts.map Prod.snd) i j →
          SetWord.Spells (Scan.ofText text).code word.reverse j k → InRow (finished.map Prod.snd) i k := by
  unfold finishWord
  split
  · next hempty =>
    obtain rfl := List.isEmpty_iff.1 hempty
    refine ⟨parts, rfl, hparts, fun i j k hrow hspelled => ?_⟩
    obtain rfl : j = k := hspelled
    exact hrow
  · next hne =>
    have hword : ∀ other ∈ [word.reverse], other ≠ [] := by simpa using hne
    have htrack : Finds (Scan.ofText text) w (.track (.ofWords w [word.reverse]))
        (SetWord.Spells (Scan.ofText text).code word.reverse) :=
      (Finds.track hword).mono fun i j hspelled => ⟨_, List.mem_cons_self .., hspelled⟩
    refine ⟨parts ++ [(.track (.ofWords w [word.reverse]),
      SetWord.Spells (Scan.ofText text).code word.reverse)], ?_, ?_, fun i j k hrow hspelled => ?_⟩
    · rw [List.map_append, List.reverse_append]
      rfl
    · intro part hmem
      rcases List.mem_append.1 hmem with hmem | hmem
      · exact hparts part hmem
      · obtain rfl := List.mem_singleton.1 hmem
        exact htrack
    · rw [List.map_append]
      exact hrow.append ⟨k, hspelled, rfl⟩

theorem exists_of_mapM_setWord? {es : List Expression} {words : List SetWord}
    (h : es.mapM setWord? = some words) :
    (∀ word ∈ words, ∃ e ∈ es, e.setWord? = some word) ∧
      ∀ e ∈ es, ∃ word ∈ words, e.setWord? = some word := by
  induction es generalizing words with
  | nil =>
    cases h
    exact ⟨fun _ hmem => (nomatch hmem), fun _ hmem => nomatch hmem⟩
  | cons e es ih =>
    rw [List.mapM_cons] at h
    obtain ⟨word, hword, h⟩ := Option.bind_eq_some_iff.1 h
    obtain ⟨rest, hrest, h⟩ := Option.bind_eq_some_iff.1 h
    cases h
    obtain ⟨hwords, hes⟩ := ih hrest
    refine ⟨fun other hmem => ?_, fun other hmem => ?_⟩
    · rcases List.mem_cons.1 hmem with rfl | hmem
      · exact ⟨e, List.mem_cons_self .., hword⟩
      · obtain ⟨e', he', hword'⟩ := hwords other hmem
        exact ⟨e', List.mem_cons_of_mem _ he', hword'⟩
    · rcases List.mem_cons.1 hmem with rfl | hmem
      · exact ⟨word, List.mem_cons_self .., hword⟩
      · obtain ⟨word', hmem', hword'⟩ := hes other hmem
        exact ⟨word', List.mem_cons_of_mem _ hmem', hword'⟩

theorem machines_eq (w : Nat) (done : List Machine) (es : List Expression) :
    machines w done es = done.reverse ++ es.map (machine w) := by
  induction es generalizing done with
  | nil => simp [machines]
  | cons e es ih =>
    rw [machines, ih, List.reverse_cons, List.append_assoc]
    rfl

/-- What matches nothing is found where it matches. -/
theorem finds_nothing (w : Nat) (places : PlaceSet) :
    Finds (Scan.ofText text) w (.nothing places) fun i j =>
      i = j ∧ places.contains (Place.ofIndex text i) = true :=
  (Finds.choiceOf places [] (fun _ hmem => nomatch hmem)).mono
    fun _ _ hspan => .inl hspan

mutual

/-- **The machine of an expression finds its matches.** -/
theorem finds_machine : ∀ (e : Expression) (w : Nat),
    Finds (Scan.ofText text) w (e.machine w) (Matches text e)
  | .literal cs, w => by
    rw [machine]
    split
    · next hempty =>
      obtain rfl := List.isEmpty_iff.1 hempty
      refine (finds_nothing w .all).mono fun i j hmatch => ?_
      cases hmatch with
      | literal _ i _ _ => exact ⟨rfl, PlaceSet.contains_all _⟩
    · next hne =>
      refine (Finds.track (by simpa using hne)).mono fun i j hmatch => ?_
      cases hmatch with
      | literal _ i _ hprefix => exact ⟨_, List.mem_cons_self .., spells_single hprefix⟩
  | .chars s, w => by
    rw [machine]
    exact (Finds.track (by simp)).mono fun i j hmatch =>
      ⟨[s], List.mem_cons_self .., spells_chars hmatch⟩
  | .anchor a, w => by
    rw [machine]
    refine (finds_nothing w (.ofAnchor a)).mono fun i j hmatch => ?_
    cases hmatch with
    | anchor _ i _ hholds => exact ⟨rfl, (PlaceSet.contains_ofAnchor a _).trans hholds⟩
  | .group _ body, w => by
    rw [machine]
    refine (finds_machine body w).mono fun i j hmatch => ?_
    cases hmatch with
    | group _ _ i j hbody => exact hbody
  | .times body min max, w => by
    rw [machine]
    exact (Finds.repeating (fun w => finds_machine body w) w min max).mono fun i j hmatch =>
      hmatch.exists_repeated
  | .concat es, w => by
    rw [machine]
    exact (finds_machineOfAll es w [] [] fun _ hmem => nomatch hmem).mono
      fun i j hmatch => ⟨i, i, rfl, rfl, hmatch⟩
  | .either es, w => by
    rw [machine]
    split
    · next words hwords =>
      obtain ⟨hback, hforth⟩ := exists_of_mapM_setWord? hwords
      have hne : ∀ word ∈ words, word ≠ [] := by
        intro word hmem
        obtain ⟨e, _, he⟩ := hback word hmem
        have hspec : word ≠ [] ∧ ∀ i j, Matches text e i j →
            word.Spells (Scan.ofText text).code i j := spells_setWord? e he
        exact hspec.1
      refine (Finds.track hne).mono fun i j hmatch => ?_
      cases hmatch with
      | either _ e i j hmem he =>
        obtain ⟨word, hword, hset⟩ := hforth e hmem
        exact ⟨word, hword, (spells_setWord? e hset).2 i j he⟩
    · have hall := finds_machines es w
      have hparts : ∀ part ∈ es.map fun e => (e.machine w, Matches text e),
          Finds (Scan.ofText text) w part.1 part.2 := by
        intro part hmem
        obtain ⟨e, he, rfl⟩ := List.mem_map.1 hmem
        exact hall e he
      have hchoice := Finds.choiceOf .empty _ hparts
      rw [machines_eq, List.reverse_nil, List.nil_append]
      rw [List.map_map] at hchoice
      refine hchoice.mono fun i j hmatch => ?_
      cases hmatch with
      | either _ e i j hmem he => exact .inr ⟨_, List.mem_map_of_mem hmem, he⟩

/-- The machine of a row of expressions finds their matches after what the finished machines find and
the word that is being collected. -/
theorem finds_machineOfAll : ∀ (es : List Expression) (w : Nat) (word : SetWord)
    (parts : List (Machine × (Nat → Nat → Prop))),
    (∀ part ∈ parts, Finds (Scan.ofText text) w part.1 part.2) →
      Finds (Scan.ofText text) w (machineOfAll w word (parts.map Prod.fst).reverse es) fun i l =>
        ∃ j k, InRow (parts.map Prod.snd) i j ∧
          SetWord.Spells (Scan.ofText text).code word.reverse j k ∧ Matches text (.concat es) k l
  | [], w, word, parts, hparts => by
    obtain ⟨finished, hfinished, hall, hrow⟩ := finishWord_spec word hparts
    rw [machineOfAll, hfinished, List.reverse_reverse]
    refine (Finds.rowOf _ hall).mono fun i l ⟨j, k, hbefore, hspelled, hmatch⟩ => ?_
    cases hmatch with
    | concat_nil _ _ => exact hrow i j _ hbefore hspelled
  | e :: es, w, word, parts, hparts => by
    rw [machineOfAll]
    split
    · next next he =>
      refine (finds_machineOfAll es w (next.reverseAux word) parts hparts).mono
        fun i l ⟨j, k, hbefore, hspelled, hmatch⟩ => ?_
      cases hmatch with
      | concat_cons _ _ _ m _ hfirst hrest =>
        refine ⟨j, m, hbefore, ?_, hrest⟩
        rw [List.reverseAux_eq, List.reverse_append, List.reverse_reverse]
        exact hspelled.append ((spells_setWord? e he).2 k m hfirst)
    · obtain ⟨finished, hfinished, hall, hrow⟩ := finishWord_spec word hparts
      have hnext : ∀ part ∈ finished ++ [(e.machine w, Matches text e)],
          Finds (Scan.ofText text) w part.1 part.2 := by
        intro part hmem
        rcases List.mem_append.1 hmem with hmem | hmem
        · exact hall part hmem
        · obtain rfl := List.mem_singleton.1 hmem
          exact finds_machine e w
      have hmachines : e.machine w :: finishWord w word (parts.map Prod.fst).reverse =
          ((finished ++ [(e.machine w, Matches text e)]).map Prod.fst).reverse := by
        rw [hfinished, List.map_append, List.reverse_append]
        rfl
      rw [hmachines]
      refine (finds_machineOfAll es w [] _ hnext).mono
        fun i l ⟨j, k, hbefore, hspelled, hmatch⟩ => ?_
      cases hmatch with
      | concat_cons _ _ _ m _ hfirst hrest =>
        refine ⟨m, m, ?_, rfl, hrest⟩
        rw [List.map_append]
        exact (hrow i j k hbefore hspelled).append ⟨m, hfirst, rfl⟩

/-- The machines of some expressions find their matches. -/
theorem finds_machines : ∀ (es : List Expression) (w : Nat), ∀ e ∈ es,
    Finds (Scan.ofText text) w (e.machine w) (Matches text e)
  | [], _, _, hmem => nomatch hmem
  | e :: es, w, e', hmem => by
    rcases List.mem_cons.1 hmem with heq | hmem
    · rw [heq]
      exact finds_machine e w
    · exact finds_machines es w e' hmem

end

end Expression

/-! ## Patterns -/

/-- **A pattern occurs where it matches**: whatever part of a value its expression describes, the
search comes upon it. -/
theorem occursIn_of_matches (p : Pattern) {value : String} {i j : Nat}
    (h : p.expression.Matches value.toList i j) : p.occursIn value = true := by
  rw [Pattern.occursIn, p.machine_eq]
  exact Machine.occursIn_of_finds (Expression.finds_machine p.expression 1) h h.le.2

end MarkupFilter.Pattern
