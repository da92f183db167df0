import MarkupFilter.Plugin.UrlAllowList
import MarkupFilter.Policy.Baseline

/-!
# Filters

A filter is a policy with settings for its output. It can be run on a text piece by piece, or on
the whole tree of the text.

## Main definitions

* `FilterSettings` — how a filter writes what the policy rejects.
* `Filter` — a policy and settings.
-/

set_option autoImplicit false

namespace MarkupFilter

/-- How a filter writes what the policy rejects. -/
structure FilterSettings where
  /-- Comments mark the places where something was rejected. -/
  withComments : Bool := true
  /-- A text put before the names of disabled tags, instead of escaping the tags. -/
  blockingPrefix : Option String := none
  /-- Angle brackets in comments are escaped. -/
  escapeCommentMarkup : Bool := true
  /-- Plugin content is given its safety settings. -/
  protectObjects : Bool := true
  /-- The addresses from which plugin content may use the network freely. -/
  urlAllowList : UrlAllowList := .nothing

/-- A policy and settings for the output. -/
structure Filter where
  policy : Policy
  settings : FilterSettings := {}

/-- The filter with the baseline policy and the usual settings. -/
def Filter.baseline : Filter := { policy := .baseline }

end MarkupFilter
