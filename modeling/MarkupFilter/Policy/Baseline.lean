import MarkupFilter.Plugin.SafetySetting
import MarkupFilter.Policy.Basic

/-!
# The baseline policy

A policy for rich text written by users: the usual elements of structure and formatting with
presentational attributes, links and images without script addresses, and plugin content, which is
guarded. There is no rule for scripts, style sheets, frames and forms, nor for any attribute that
runs a script on an event.

## Main definitions

* `Policy.baseline` — the policy.
-/

set_option autoImplicit false

namespace MarkupFilter.Policy

/-- The attributes that most elements may have. -/
def globalAttributes : List String :=
  ["class", "id", "title", "dir", "lang", "style", "align"]

/-- The elements of structure and formatting. -/
def textElements : List String :=
  ["abbr", "address", "b", "bdi", "bdo", "big", "blockquote", "br", "caption", "center", "cite",
    "code", "col", "colgroup", "dd", "del", "dfn", "div", "dl", "dt", "em", "figcaption", "figure",
    "font", "h1", "h2", "h3", "h4", "h5", "h6", "hr", "i", "ins", "kbd", "li", "mark", "ol", "p",
    "pre", "q", "s", "samp", "small", "span", "strike", "strong", "sub", "sup", "table", "tbody",
    "td", "tfoot", "th", "thead", "tr", "tt", "u", "ul", "var"]

/-- The attributes that describe how an element looks. -/
def presentationAttributes : List String :=
  ["width", "height", "border", "cellpadding", "cellspacing", "colspan", "rowspan", "valign",
    "bgcolor", "color", "face", "size", "start", "type", "cite", "datetime", "span"]

/-- The names of the safety settings of plugins. -/
def safetySettingNames : List String :=
  SafetySetting.all.map SafetySetting.name

/-- The attributes whose values are addresses or the like, from which a script could be run. -/
def addressAttributes : List String :=
  ["href", "src", "data", "classid", "value"]

/-- The pattern of addresses that run a script, and of script elements in data. -/
def scriptUrl : String :=
  "(?i)^[\\x00-\\x20]*(?:j\\s*a\\s*v\\s*a|v\\s*b|l\\s*i\\s*v\\s*e)" ++
    "\\s*s\\s*c\\s*r\\s*i\\s*p\\s*t\\s*:|data:\\s*text/html|<\\s*script"

/-- The patterns of styles that run a script or load a page. -/
def scriptStyles : List String :=
  ["(?i)expression\\s*\\(", "(?i)(?:java|vb)script:", "(?i)url\\s*\\("]

/-- The element rules of the baseline policy. -/
def baselineElements : List (Declaration ElementRule) :=
  (textElements.map fun name =>
    { rule := ({ name := name } : ElementRule).allowAttributes
        (globalAttributes ++ presentationAttributes) }) ++
  [{ rule := ({ name := "a" } : ElementRule).allowAttributes
        (globalAttributes ++ ["href", "name", "target", "rel"])
     listenerNames := ["link-rel"] },
   { rule := ({ name := "img" } : ElementRule).allowAttributes
        (globalAttributes ++ presentationAttributes ++ ["src", "alt"]) },
   { rule := ({ name := "object" } : ElementRule).allowAttributes
        (globalAttributes ++ ["width", "height", "data", "type", "classid"]) },
   { rule := ({ name := "param" } : ElementRule).allowAttributes ["name", "value"] },
   { rule := ({ name := "embed" } : ElementRule).allowAttributes
        (["src", "type", "width", "height"] ++ safetySettingNames) },
   { rule := { name := conditionalName } }]

/-- The names of attributes that may have any value. -/
def plainAttributes : List String :=
  (globalAttributes ++ presentationAttributes ++ ["name", "target", "rel", "alt"] ++
    safetySettingNames).filter fun name => name != "style"

/-- The attribute rules of the baseline policy. -/
def baselineAttributes : Except PolicyError (List (Declaration AttributeRule)) := do
  let plain := plainAttributes.map fun name => { rule := { name := name } }
  let addresses ← addressAttributes.mapM fun name => do
    return { rule := ← ({ name := name, decodesBase64 := true } : AttributeRule).deny scriptUrl }
  let style ← scriptStyles.foldlM AttributeRule.deny { name := "style" }
  return plain ++ addresses ++ [{ rule := style }]

/-- The baseline policy as drafted and built. -/
def baseline? : Except PolicyError Policy := do
  PolicyDraft.build ⟨baselineElements, ← baselineAttributes⟩

/-- The baseline policy. Its patterns are well formed and its listener is known, so it builds;
if it did not, nothing would be allowed. -/
def baseline : Policy :=
  match baseline? with
  | .ok p => p
  | .error _ => {}

end MarkupFilter.Policy
