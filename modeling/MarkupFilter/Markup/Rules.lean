import MarkupFilter.Grammar.Cursor

/-!
# The grammar of markup

Untrusted markup is read with one grammar, in which every text is a row of units: conditional
comment openers and closers, comments, end tags, start tags and text. What fits none of the others
is text, down to a single `<`.

## Main definitions

* `Markup.rulesText` — the rules in their notation.
* `Markup.grammar` — the rules.
* `Markup.unitTokens` — the units of a text, read one by one.
* `Markup.documentToken` — the units of a text, read as one document.
-/

set_option autoImplicit false

namespace MarkupFilter.Markup

open Grammar

/-- The rules of markup in the rule notation. -/
def rulesText : String := r#"
document     ::= unit*
unit         ::= ieHackStart | ieHackEnd | comment | endTag | startTag | text

/* <!--[if IE]>, <![if IE]>, and the broken <!--[if IE]--> spelling */
ieHackStart  ::= ('<!--[' | '<![') ieCondition (']><!-->' | ']-->' | ']>')
ieCondition  ::= 'if' [^#x5D<>]+
ieHackEnd    ::= ('<!--<![' | '<!--[' | '<![') 'endif' _space* (']-->' | ']>')

comment      ::= '<!--' commentBody '-->'
commentBody  ::= _char* - '-->'

startTag     ::= '<' tagName (_space* attribute)* _space* selfClose? '>'
selfClose    ::= '/'
endTag       ::= '</' tagName _space* '>'
tagName      ::= [a-zA-Z] [a-zA-Z0-9:_.#x2D]*

attribute    ::= attrName (_space* '=' _space* attrValue)?
attrName     ::= [^#x20#x9#xA#xD#xC/>=<"']+
attrValue    ::= '"' doubleQuoted '"' | "'" singleQuoted "'" | unquoted
doubleQuoted ::= [^"]*
singleQuoted ::= [^']*
unquoted     ::= [^#x20#x9#xA#xD#xC>"'`=<] [^#x20#x9#xA#xD#xC><]*

text         ::= [^<]+ | '<'

_space       ::= [#x20#x9#xA#xD#xC]
_char        ::= [#x0-#x10FFFF]
"#

/-! ## Rules -/

/-- A literal, once. -/
def lit (text : String) : Rule :=
  .literal .one text.toList

/-- A reference to the rule `name`. -/
def ref (name : String) (q : Quantifier := .one) : Rule :=
  .reference q name

/-- One character among `singles` and `ranges`. -/
def oneOf (singles : List Char) (ranges : List (Char × Char)) (q : Quantifier := .one) : Rule :=
  .charSet q ⟨ranges ++ singles.map fun c => (c, c), false⟩

/-- One character that is not among `singles`. -/
def noneOf (singles : List Char) (q : Quantifier := .one) : Rule :=
  .charSet q ⟨singles.map fun c => (c, c), true⟩

/-- The blanks of markup. -/
def blanks : List Char := [' ', '\t', '\n', '\r', '\x0c']

/-- Any number of units. -/
def document : Rule :=
  ref "unit" .zeroOrMore

/-- One unit; text comes last and fits every text. -/
def unit : Rule :=
  .choice .one [ref "ieHackStart", ref "ieHackEnd", ref "comment", ref "endTag", ref "startTag",
    ref "text"]

/-- A conditional comment opener: `<!--[if IE]>`, `<![if IE]>` and spellings that close at once. -/
def ieHackStart : Rule :=
  .sequence .one [.choice .one [lit "<!--[", lit "<!["], ref "ieCondition",
    .choice .one [lit "]><!-->", lit "]-->", lit "]>"]]

/-- The condition in the brackets. -/
def ieCondition : Rule :=
  .sequence .one [lit "if", noneOf [']', '<', '>'] .oneOrMore]

/-- A conditional comment closer. -/
def ieHackEnd : Rule :=
  .sequence .one [.choice .one [lit "<!--<![", lit "<!--[", lit "<!["], lit "endif",
    ref "_space" .zeroOrMore, .choice .one [lit "]-->", lit "]>"]]

/-- A comment. -/
def comment : Rule :=
  .sequence .one [lit "<!--", ref "commentBody", lit "-->"]

/-- The text of a comment, up to the nearest closer. -/
def commentBody : Rule :=
  .difference .one (ref "_char" .zeroOrMore) (lit "-->")

/-- A start tag with its attributes. -/
def startTag : Rule :=
  .sequence .one [lit "<", ref "tagName",
    .sequence .zeroOrMore [ref "_space" .zeroOrMore, ref "attribute"],
    ref "_space" .zeroOrMore, ref "selfClose" .optional, lit ">"]

/-- The slash of a tag that closes itself. -/
def selfClose : Rule :=
  lit "/"

/-- An end tag. -/
def endTag : Rule :=
  .sequence .one [lit "</", ref "tagName", ref "_space" .zeroOrMore, lit ">"]

/-- The name of an element. -/
def tagName : Rule :=
  .sequence .one [oneOf [] [('a', 'z'), ('A', 'Z')],
    oneOf [':', '_', '.', '-'] [('a', 'z'), ('A', 'Z'), ('0', '9')] .zeroOrMore]

/-- An attribute, with or without a value. -/
def attr : Rule :=
  .sequence .one [ref "attrName",
    .sequence .optional [ref "_space" .zeroOrMore, lit "=", ref "_space" .zeroOrMore,
      ref "attrValue"]]

/-- The name of an attribute. -/
def attrName : Rule :=
  noneOf (blanks ++ ['/', '>', '=', '<', '"', '\'']) .oneOrMore

/-- A value in double quotes, in single quotes or without quotes. -/
def attrValue : Rule :=
  .choice .one [.sequence .one [lit "\"", ref "doubleQuoted", lit "\""],
    .sequence .one [lit "'", ref "singleQuoted", lit "'"], ref "unquoted"]

/-- What stands between double quotes. -/
def doubleQuoted : Rule :=
  noneOf ['"'] .zeroOrMore

/-- What stands between single quotes. -/
def singleQuoted : Rule :=
  noneOf ['\''] .zeroOrMore

/-- A value without quotes. -/
def unquoted : Rule :=
  .sequence .one [noneOf (blanks ++ ['>', '"', '\'', '`', '=', '<']),
    noneOf (blanks ++ ['>', '<']) .zeroOrMore]

/-- Text up to the next `<`, or a `<` that begins nothing else. -/
def text : Rule :=
  .choice .one [noneOf ['<'] .oneOrMore, lit "<"]

/-- One blank. -/
def space : Rule :=
  oneOf blanks []

/-- Any character. -/
def char : Rule :=
  oneOf [] [('\x00', Char.ofNat 0x10FFFF)]

/-- The rules of markup. -/
def grammar : Grammar :=
  ⟨[("document", document), ("unit", unit), ("ieHackStart", ieHackStart),
    ("ieCondition", ieCondition), ("ieHackEnd", ieHackEnd), ("comment", comment),
    ("commentBody", commentBody), ("startTag", startTag), ("selfClose", selfClose),
    ("endTag", endTag), ("tagName", tagName), ("attribute", attr), ("attrName", attrName),
    ("attrValue", attrValue), ("doubleQuoted", doubleQuoted), ("singleQuoted", singleQuoted),
    ("unquoted", unquoted), ("text", text), ("_space", space), ("_char", char)]⟩

/-! ## Reading markup -/

/-- The units of `input`, read one by one. -/
def unitTokens (input : String) : List Token :=
  (grammar.cursorOf "unit" input.toList).tokens

/-- All of `input` read as one document, whose tokens are its units. -/
def documentToken (input : String) : Option Token :=
  grammar.matchAt "document" (.whole input.toList)

end MarkupFilter.Markup
