import MarkupFilter.Proofs.Filter.Spelling
import MarkupFilter.Proofs.Policy.EncodedValues

/-!
# Written values

A value is written with its angle brackets and its own quote as references; references that stand
in it already are left as they are. What is written ends neither the value nor its tag, and it is
read as the value itself, by a browser and by the rules of a policy.

## Main results

* `sameMeaning_renderValue` — a written value means what the value means.
-/

set_option autoImplicit false

namespace MarkupFilter

open CharacterReference

/-- **A written value means what the value means.** Within no quotes, double or single ones, the
value that is written for an attribute has no angle brackets and does not have its quote. Its
references are read as those of the value are, and every rule without listeners decides about it
as it decides about the value. -/
theorem sameMeaning_renderValue {a : Attribute} {value : String} (ha : a.value = some value)
    {quote? : Option Char} (hquote : quote? = none ∨ quote? = some '"' ∨ quote? = some '\'') :
    a.render quote? = " " ++ a.name ++ "=" ++ quoteText quote? ++ renderValue quote? value ++
        quoteText quote? ∧
      NoAngles (renderValue quote? value).toList ∧
      (∀ q ∈ quote?, q ∉ (renderValue quote? value).toList) ∧
      unescape (renderValue quote? value) = unescape value ∧
      ∀ rule : AttributeRule, rule.listeners = [] → ∀ owner : String,
        (decideAttribute (some rule) { a with value := some (renderValue quote? value) }
          owner).enabled = (decideAttribute (some rule) a owner).enabled := by
  refine ⟨?_, noAngles_renderValue quote? value, ?_, unescape_renderValue quote? value, ?_⟩
  · rw [Attribute.render, ha]
  · rintro q rfl
    refine quote_not_mem_renderValue ?_ value
    simpa using hquote
  · intro rule hlisteners owner
    rw [enabled_decideAttribute hlisteners, enabled_decideAttribute hlisteners, ha,
      Option.getD_some, Option.getD_some, effectiveValue, effectiveValue, unescape_renderValue]

/-- A reference to a less-than sign is broken off by a real one, and a number is ended by a quote. -/
theorem sameMeaning_renderValue_broken :
    let a := Attribute.ofValue "src" "&l<t;&#60\"&#60script"
    let written := renderValue (some '"') "&l<t;&#60\"&#60script"
    a.value = some "&l<t;&#60\"&#60script" ∧
      a.render (some '"') = " src=\"&l&lt;t;&#60&quot;&#60script\"" ∧
      NoAngles written.toList ∧ '"' ∉ written.toList ∧
      unescape written = "&l<t;<\"<script" ∧ scriptless.listeners = [] ∧
      (decideAttribute (some scriptless) { a with value := some written } "img").enabled =
        false := by
  intro a written
  obtain ⟨hrender, hangles, hquote, hread, hdecided⟩ :=
    sameMeaning_renderValue (show a.value = some "&l<t;&#60\"&#60script" from rfl) (.inr (.inl rfl))
  exact ⟨rfl, hrender.trans (by decide +kernel), hangles, hquote '"' rfl,
    hread.trans (by decide +kernel), rfl,
    (hdecided scriptless rfl "img").trans (by decide +kernel)⟩

end MarkupFilter
