import MarkupFilter.Grammar.Error
import MarkupFilter.RuleText.Lexeme

/-!
# Definitions of the rule notation

A row of lexemes is read as definitions:

    definitions ::= (name '::=' expression)+
    expression  ::= sequence ('|' sequence)*
    sequence    ::= difference+
    difference  ::= quantified ('-' quantified)?
    quantified  ::= primary ('?' | '*' | '+')?
    primary     ::= '(' expression ')' | literal | set | code point | name

A name before a definition sign starts the next definition and is no primary. Every reader returns
the lexemes it leaves, with a proof that there are fewer of them, so reading ends.

## Main definitions

* `RuleText.definitions` — the definitions of a row of lexemes.
-/

set_option autoImplicit false

namespace MarkupFilter.RuleText

open Grammar

/-! ## Looking ahead -/

/-- The lexemes go on with a name and a definition sign. -/
def atDefinition : List Located → Bool
  | ⟨.name _, _⟩ :: ⟨.define, _⟩ :: _ => true
  | _ => false

/-- The lexemes go on with something that a primary can start with. -/
def startsItem : List Located → Bool
  | ls@(⟨.name _, _⟩ :: _) => !atDefinition ls
  | ⟨.literal _, _⟩ :: _ => true
  | ⟨.charSet _, _⟩ :: _ => true
  | ⟨.charCode _, _⟩ :: _ => true
  | ⟨.openGroup, _⟩ :: _ => true
  | _ => false

/-- The quantifier that a lexeme stands for. -/
def quantifier? : Lexeme → Option Quantifier
  | .question => some .optional
  | .star => some .zeroOrMore
  | .plus => some .oneOrMore
  | _ => none

/-- The lexemes go on with a quantifier. -/
def startsQuantifier : List Located → Bool
  | ⟨lexeme, _⟩ :: _ => (quantifier? lexeme).isSome
  | [] => false

/-- The report that the first lexeme left cannot stand there; the end of the text is at the place
`stop`. -/
def unexpected (stop : Nat) : List Located → GrammarError
  | ⟨lexeme, offset⟩ :: _ => .unexpectedToken (.lexeme lexeme) offset
  | [] => .unexpectedToken .endOfInput stop

/-! ## Expressions -/

/-- A value read from the front of `ls`, and the lexemes left after it. -/
structure Parsed (α : Type) (ls : List Located) where
  value : α
  rest : List Located
  shorter : rest.length < ls.length

/-- Several sequences as one rule: a single one stands for itself. -/
def joinAlternatives : List Rule → Rule
  | [rule] => rule
  | rules => .choice .one rules

/-- Several items as one rule: a single one stands for itself. -/
def joinItems : List Rule → Rule
  | [rule] => rule
  | rules => .sequence .one rules

mutual

/-- A group, a literal, a set, a code point or a reference. -/
def primary (stop : Nat) (ls : List Located) : Except GrammarError (Parsed Rule ls) :=
  match ls with
  | [] => .error (unexpected stop [])
  | ⟨.openGroup, offset⟩ :: rest =>
    match alternatives stop rest with
    | .error e => .error e
    | .ok inner =>
      match h : inner.rest with
      | ⟨.closeGroup, _⟩ :: after =>
        .ok ⟨joinAlternatives inner.value, after, by
          have := inner.shorter
          simp only [h, List.length_cons] at this ⊢
          omega⟩
      | _ => .error (.unterminatedGroup offset)
  | ⟨.literal text, _⟩ :: rest => .ok ⟨.literal .one text.toList, rest, by simp⟩
  | ⟨.charSet set, _⟩ :: rest => .ok ⟨.charSet .one set, rest, by simp⟩
  | ⟨.charCode code, _⟩ :: rest => .ok ⟨.charCode .one code, rest, by simp⟩
  | ⟨.name text, _⟩ :: rest => .ok ⟨.reference .one text, rest, by simp⟩
  | ls => .error (unexpected stop ls)
termination_by (ls.length, 0)

/-- A primary with its quantifier, of which there is at most one. -/
def quantified (stop : Nat) (ls : List Located) : Except GrammarError (Parsed Rule ls) :=
  match primary stop ls with
  | .error e => .error e
  | .ok item =>
    match h : item.rest with
    | ⟨lexeme, _⟩ :: after =>
      match quantifier? lexeme with
      | none => .ok item
      | some q =>
        if startsQuantifier after then .error (unexpected stop after)
        else .ok ⟨item.value.quantify q, after, by
          have := item.shorter
          simp only [h, List.length_cons] at this
          omega⟩
    | [] => .ok item
termination_by (ls.length, 1)

/-- One quantified item, or two with a minus between them. -/
def difference (stop : Nat) (ls : List Located) : Except GrammarError (Parsed Rule ls) :=
  match quantified stop ls with
  | .error e => .error e
  | .ok left =>
    match h : left.rest with
    | ⟨.minus, _⟩ :: after =>
      if startsItem after then
        match quantified stop after with
        | .error e => .error e
        | .ok right => .ok ⟨.difference .one left.value right.value, right.rest, by
            have := left.shorter
            have := right.shorter
            simp only [h, List.length_cons] at *
            omega⟩
      else .error (unexpected stop after)
    | _ => .ok left
termination_by (ls.length, 2)
decreasing_by
  · omega
  · have := left.shorter
    simp only [h, List.length_cons] at this
    omega

/-- As many differences as follow, at least one. -/
def items (stop : Nat) (ls : List Located) : Except GrammarError (Parsed (List Rule) ls) :=
  match difference stop ls with
  | .error e => .error e
  | .ok first =>
    if startsItem first.rest then
      match items stop first.rest with
      | .error e => .error e
      | .ok more => .ok ⟨first.value :: more.value, more.rest, by
          have := first.shorter
          have := more.shorter
          omega⟩
    else .ok ⟨[first.value], first.rest, first.shorter⟩
termination_by (ls.length, 3)
decreasing_by
  · omega
  · have := first.shorter
    omega

/-- As many sequences as follow with bars between them, at least one. -/
def alternatives (stop : Nat) (ls : List Located) : Except GrammarError (Parsed (List Rule) ls) :=
  if startsItem ls then
    match items stop ls with
    | .error e => .error e
    | .ok first =>
      match h : first.rest with
      | ⟨.bar, _⟩ :: after =>
        match alternatives stop after with
        | .error e => .error e
        | .ok more => .ok ⟨joinItems first.value :: more.value, more.rest, by
            have := first.shorter
            have := more.shorter
            simp only [h, List.length_cons] at *
            omega⟩
      | _ => .ok ⟨[joinItems first.value], first.rest, first.shorter⟩
  else .error (unexpected stop ls)
termination_by (ls.length, 4)
decreasing_by
  · omega
  · have := first.shorter
    simp only [h, List.length_cons] at this
    omega

end

/-! ## Definitions -/

/-- The definitions up to the end of the lexemes. -/
def definitionsFrom (stop : Nat) (ls : List Located) :
    Except GrammarError (List (String × Rule)) :=
  match ls with
  | [] => .ok []
  | ⟨.name name, _⟩ :: ⟨.define, _⟩ :: body =>
    match alternatives stop body with
    | .error e => .error e
    | .ok rule =>
      match definitionsFrom stop rule.rest with
      | .error e => .error e
      | .ok more => .ok ((name, joinAlternatives rule.value) :: more)
  | ⟨.name name, _⟩ :: _ => .error (.missingDefinition name)
  | ls => .error (unexpected stop ls)
termination_by ls.length
decreasing_by
  have := rule.shorter
  simp only [List.length_cons]
  omega

/-- The definitions that a row of lexemes consists of, at least one; the end of the text is at the
place `stop`. -/
def definitions (stop : Nat) (ls : List Located) : Except GrammarError (List (String × Rule)) :=
  match ls with
  | [] => .error .emptyGrammar
  | ls => definitionsFrom stop ls

end MarkupFilter.RuleText
