import MarkupFilter.RuleText.Lexeme

/-!
# Errors of grammars

What can be wrong with the text of a grammar, with the graph of its rules, and with a request to
match. Errors in the text carry the place, in bytes, of what is at fault.

## Main definitions

* `GrammarError` — the causes.
* `GrammarError.message` — how they are reported.
-/

set_option autoImplicit false

namespace MarkupFilter

open RuleText

/-- What stands where it cannot stand. -/
inductive Unexpected where
  /-- A lexeme that nothing can begin or go on with at its place. -/
  | lexeme (found : Lexeme)
  /-- The end of the text, where an item is needed. -/
  | endOfInput
  /-- A comment that is never closed. -/
  | unterminatedComment
  deriving DecidableEq, Repr

/-- How a message names what was found. -/
def Unexpected.describe : Unexpected → String
  | .lexeme found => found.describe
  | .endOfInput => "end of input"
  | .unterminatedComment => "unterminated comment"

/-- What is wrong with a grammar or with a request to it. -/
inductive GrammarError where
  /-- The parenthesis opened at `offset` is not closed. -/
  | unterminatedGroup (offset : Nat)
  /-- The quote at `offset` is not closed. -/
  | unterminatedLiteral (offset : Nat)
  /-- The bracket opened at `offset` is not closed. -/
  | unterminatedCharClass (offset : Nat)
  /-- A character that begins no lexeme. -/
  | unknownOperator (found : Char) (offset : Nat)
  /-- A lexeme, the end of the text or a comment at a place that cannot take it. -/
  | unexpectedToken (found : Unexpected) (offset : Nat)
  /-- A code point without digits, or that is no character. -/
  | invalidCharCode (offset : Nat)
  /-- A rule name that no definition sign follows. -/
  | missingDefinition (name : String)
  /-- Two definitions of one name. -/
  | duplicateRule (name : String)
  /-- A reference in `rule` to a name that is not defined. -/
  | undefinedRule (rule name : String)
  /-- A request to match a rule that is not defined. -/
  | unknownStartRule (name : String)
  /-- No definition at all. -/
  | emptyGrammar
  deriving DecidableEq, Repr

/-- What is wrong, in words. -/
def GrammarError.describe : GrammarError → String
  | .unterminatedGroup offset => "unterminated group opened at offset " ++ toString offset
  | .unterminatedLiteral offset => "unterminated literal starting at offset " ++ toString offset
  | .unterminatedCharClass offset =>
    "unterminated character class starting at offset " ++ toString offset
  | .unknownOperator found offset =>
    "unknown operator " ++ Quoted.char found ++ " at offset " ++ toString offset
  | .unexpectedToken found offset =>
    "unexpected " ++ found.describe ++ " at offset " ++ toString offset
  | .invalidCharCode offset => "invalid character code at offset " ++ toString offset
  | .missingDefinition name => "expected `::=` after rule name `" ++ name ++ "`"
  | .duplicateRule name => "rule `" ++ name ++ "` is defined more than once"
  | .undefinedRule rule name => "rule `" ++ rule ++ "` references undefined rule `" ++ name ++ "`"
  | .unknownStartRule name => "unknown start rule `" ++ name ++ "`"
  | .emptyGrammar => "grammar contains no rules"

/-- How an error is reported. -/
def GrammarError.message (e : GrammarError) : String :=
  "Grammar error: " ++ e.describe

end MarkupFilter
