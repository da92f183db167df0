import MarkupFilter.Grammar.Token
import MarkupFilter.RuleText.Definition
import MarkupFilter.RuleText.Lexing

/-!
# Grammars

A grammar is a list of named rules in the order of their declaration. It is accepted when it has a
rule, no name is defined twice, and every reference has a definition.

## Main definitions

* `Grammar` — named rules.
* `Grammar.ofDefinitions` — the grammar of a list of definitions, or what is wrong with it.
* `Grammar.compile` — the grammar written by a text.
-/

set_option autoImplicit false

namespace MarkupFilter

/-- Named rules in the order of their declaration. -/
structure Grammar where
  rules : List (String × Grammar.Rule)
  deriving Repr

namespace Grammar

/-- The rule of a name. -/
def rule? (g : Grammar) (name : String) : Option Rule :=
  g.rules.lookup name

/-- The names of the rules, in the order of their declaration. -/
def names (g : Grammar) : List String :=
  g.rules.map Prod.fst

/-- Whether a rule has the given name. -/
def defines (g : Grammar) (name : String) : Bool :=
  (g.rule? name).isSome

/-- The first name in `names` that stands there already before, or in `seen`. -/
def firstRepeated (seen : List String) : List String → Option String
  | [] => none
  | name :: names => if seen.contains name then some name else firstRepeated (name :: seen) names

/-- The first reference without a definition, with the name of the rule that contains it. -/
def firstUndefined (g : Grammar) : Option (String × String) :=
  g.rules.findSome? fun (name, rule) =>
    (rule.references.find? fun reference => !g.defines reference).map fun reference =>
      (name, reference)

/-- The grammar of a list of definitions. A repeated name is reported before any undefined
reference. -/
def ofDefinitions (definitions : List (String × Rule)) : Except GrammarError Grammar :=
  if definitions.isEmpty then .error .emptyGrammar
  else
    let g : Grammar := ⟨definitions⟩
    match firstRepeated [] g.names with
    | some name => .error (.duplicateRule name)
    | none =>
      match g.firstUndefined with
      | some (rule, name) => .error (.undefinedRule rule name)
      | none => .ok g

/-- The grammar written by `text`. Faults of the notation are reported before those of the rules'
graph. -/
def compile (text : String) : Except GrammarError Grammar :=
  let cs := text.toList
  match RuleText.lexemes cs with
  | .error e => .error e
  | .ok ls =>
    match RuleText.definitions (Utf8.size cs) ls with
    | .error e => .error e
    | .ok definitions => ofDefinitions definitions

/-- A rule whose name starts with an underscore makes no token of its own; the tokens inside it
count as tokens of the rule that refers to it. -/
def isSilent (name : String) : Bool :=
  name.toList.head? == some '_'

/-- The match of the rule called `name`, given the match of its body: a token, unless the rule is
silent. -/
def Match.named (m : Match) (name : String) (w : Window) : Match :=
  if isSilent name then m else ⟨m.length, [m.toToken name w]⟩

/-- A bound on how deep references are nested while `g` matches `w`, unless a rule refers to
itself without reading on: between two readings each rule is entered at most once. -/
def depthBound (g : Grammar) (w : Window) : Nat :=
  (w.size + 1) * (g.rules.length + 1)

end Grammar

end MarkupFilter
