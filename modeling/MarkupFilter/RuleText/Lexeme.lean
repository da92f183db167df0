import MarkupFilter.Grammar.Rule
import MarkupFilter.Text.Quoted

/-!
# Lexemes of the rule notation

The text of a grammar is a row of lexemes with blanks and comments between them:

    name ::= 'literal' "literal" [a-z] #x41 ( ) | - ? * +

## Main definitions

* `RuleText.Lexeme` — the lexemes.
* `RuleText.Lexeme.describe` — how messages name them.
* `RuleText.Located` — a lexeme and the place of its first byte.
-/

set_option autoImplicit false

namespace MarkupFilter.RuleText

open Grammar

/-- A lexeme of the rule notation. -/
inductive Lexeme where
  /-- A rule name. -/
  | name (text : String)
  /-- `::=` -/
  | define
  /-- A text in single or double quotes. -/
  | literal (text : String)
  /-- A set of characters in brackets. -/
  | charSet (set : CharSet)
  /-- A character by its code point. -/
  | charCode (code : Char)
  | openGroup
  | closeGroup
  | bar
  | minus
  | question
  | star
  | plus
  deriving DecidableEq, Repr

/-- How a message names the lexeme. -/
def Lexeme.describe : Lexeme → String
  | .name text => "rule name `" ++ text ++ "`"
  | .define => "`::=`"
  | .literal text => "literal " ++ Quoted.text text
  | .charSet _ => "character class"
  | .charCode code => "character code 0x" ++ String.ofList (Nat.toDigits 16 code.toNat)
  | .openGroup => "`(`"
  | .closeGroup => "`)`"
  | .bar => "`|`"
  | .minus => "`-`"
  | .question => "`?`"
  | .star => "`*`"
  | .plus => "`+`"

/-- A lexeme and the place of its first byte in the text. -/
structure Located where
  lexeme : Lexeme
  offset : Nat
  deriving DecidableEq, Repr

end MarkupFilter.RuleText
