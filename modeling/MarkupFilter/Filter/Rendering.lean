import MarkupFilter.Filter.Deciding
import MarkupFilter.Text.CharacterReference

/-!
# Writing markup

Both ways of running a filter write through these functions, so they write the same for the same
decisions. Rejected tags are kept in sight but without effect: escaped, or renamed by the blocking
prefix. Rejected attributes are moved to a comment before the tag.

## Main definitions

* `Filter.renderText`, `Filter.renderComment` — texts and comments.
* `Filter.renderStartTag`, `Filter.renderEndTag` — tags by their decision.
* `Filter.renderStrayEndTag`, `Filter.renderConditionalEnd` — closing constructs without opener.
-/

set_option autoImplicit false

namespace MarkupFilter

open CharacterReference

/-! ## Attributes -/

/-- A character of a value within the given quotes: angle brackets and the quote itself become
references. Others, references in the value among them, stay as they are. -/
def escapeInValue (quote? : Option Char) (c : Char) : List Char :=
  match c with
  | '<' => ['&', 'l', 't', ';']
  | '>' => ['&', 'g', 't', ';']
  | '"' => if quote? = some '"' then ['&', 'q', 'u', 'o', 't', ';'] else ['"']
  | '\'' => if quote? = some '\'' then ['&', '#', '3', '9', ';'] else ['\'']
  | c => [c]

/-- The text of a value within the given quotes. -/
def renderValue (quote? : Option Char) (value : String) : String :=
  String.ofList (value.toList.flatMap (escapeInValue quote?))

/-- The quote as a text. -/
def quoteText : Option Char → String
  | some c => String.ofList [c]
  | none => ""

/-- A blank and an attribute, its value within the given quotes. -/
def Attribute.render (a : Attribute) (quote? : Option Char) : String :=
  match a.value with
  | none => " " ++ a.name
  | some value =>
    " " ++ a.name ++ "=" ++ quoteText quote? ++ renderValue quote? value ++ quoteText quote?

/-- The enabled attributes of an element, each after a blank. -/
def Element.renderAttributes (e : Element) : String :=
  String.join (e.attributes.enabled.map fun a => a.render a.quote)

namespace Filter

/-! ## Markers -/

/-- A comment, if the filter writes marker comments. -/
def marker (f : Filter) (body : String) : String :=
  if f.settings.withComments then "<!-- " ++ body ++ " -->" else ""

/-- The marker of a removed tag. -/
def removedMarker (f : Filter) (name : String) : String :=
  f.marker ("Removed Tag Filtered (" ++ escapeAngles name ++ ")")

/-- The marker of the disabled attributes of an element, if there are any. -/
def attributeMarker (f : Filter) (e : Element) : String :=
  if e.attributes.disabled.isEmpty then ""
  else f.marker ("Not Allowed Attribute Filtered (" ++
    String.join (e.attributes.disabled.map fun a => a.render (some '"')) ++ ")")

/-- The marker of a disabled tag. The marker of its attributes, if it has any that are disabled,
stands for it. -/
def disabledMarker (f : Filter) (e : Element) : String :=
  if e.attributes.disabled.isEmpty then f.marker "Not Allowed Tag Filtered"
  else f.attributeMarker e

/-! ## Tags -/

/-- The opener of a conditional comment in its usual spelling, or the marker of its removal. -/
def renderConditionalStart (f : Filter) (condition : String) (decision : Decision) : String :=
  if decision = .allowed then "<!--[" ++ condition ++ "]>"
  else f.removedMarker Policy.conditionalName

/-- The start tag of an element that is not allowed, without effect. -/
def renderDisabledStartTag (f : Filter) (e : Element) : String :=
  match f.settings.blockingPrefix with
  | some p => "<" ++ p ++ e.name ++ e.renderAttributes ++ if e.selfClosed then "/>" else ">"
  | none =>
    "&lt;" ++ e.name ++ e.renderAttributes ++ if e.selfClosed then "/&gt;" else "&gt;"

/-- The start tag of an allowed element. -/
def renderLiveStartTag (e : Element) : String :=
  "<" ++ e.name ++ e.renderAttributes ++ if e.selfClosed then "/>" else ">"

/-- The start tag of an element, by the decision on it. -/
def renderStartTag (f : Filter) (e : Element) (decision : Decision) : String :=
  match e.condition with
  | some condition => f.renderConditionalStart condition decision
  | none =>
    match decision with
    | .removed => f.removedMarker e.name
    | .disabled => f.disabledMarker e ++ f.renderDisabledStartTag e
    | .allowed => f.attributeMarker e ++ renderLiveStartTag e

/-- A parameter that gives a safety setting to the object around it. -/
def renderParam (name value : String) : String :=
  "<param name=\"" ++ name ++ "\" value=\"" ++ value ++ "\">"

/-- An end tag, by the decision on its element, after the parameters to be written before it. -/
def renderEndTag (f : Filter) (name : String) (decision : Decision)
    (params : List (String × String)) : String :=
  String.join (params.map fun (name, value) => renderParam name value) ++
    match decision with
    | .removed => ""
    | .disabled =>
      match f.settings.blockingPrefix with
      | some p => "</" ++ p ++ name ++ ">"
      | none => "&lt;/" ++ name ++ "&gt;"
    | .allowed => "</" ++ name ++ ">"

/-- An end tag that closes nothing. -/
def renderStrayEndTag (f : Filter) (name : String) : String :=
  f.renderEndTag name (decideEndTag (f.policy.elementRule? name)) []

/-- The closer of a conditional comment, written only if such comments are allowed. -/
def renderConditionalEnd (f : Filter) : String :=
  if decideEndTag (f.policy.elementRule? Policy.conditionalName) = .allowed then "<![endif]-->"
  else ""

/-! ## Texts and comments -/

/-- A text, in which no tag can start. -/
def renderText (raw : String) : String :=
  escapeAngles raw

/-- A comment. -/
def renderComment (f : Filter) (body : String) : String :=
  "<!--" ++ (if f.settings.escapeCommentMarkup then escapeAngles body else body) ++ "-->"

end Filter

end MarkupFilter
