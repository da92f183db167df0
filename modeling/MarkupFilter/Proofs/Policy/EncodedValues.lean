import MarkupFilter.Policy.Decision
import MarkupFilter.Proofs.Text.Base64
import MarkupFilter.Proofs.Text.References

/-!
# Values with encoded payloads

A rule that decodes base64 tries its patterns on what is encoded. Blanks do not hide a payload from
it, but the lack of padding does: a payload that is not spelled in full is matched as it stands.

## Main definitions

* `AttributeRule.acceptsText` — the patterns of a rule accept a text as it is.

## Main results

* `enabled_decideAttribute_encoded` — what a rule decides about a value with an encoded payload.
* `enabled_decideAttribute_unpadded` — a payload can be hidden.
-/

set_option autoImplicit false

namespace MarkupFilter

open DataUrl (compact announcesBase64)

/-- The patterns of the rule accept the text as it is. -/
def AttributeRule.acceptsText (rule : AttributeRule) (text : String) : Bool :=
  if rule.allowed.isEmpty then !(rule.denied.any fun p => p.occursIn text)
  else rule.allowed.any fun p => p.occursIn text

/-- Without listeners, a rule enables an attribute by its flags and its patterns. -/
theorem enabled_decideAttribute {rule : AttributeRule} (hl : rule.listeners = []) (a : Attribute)
    (owner : String) : (decideAttribute (some rule) a owner).enabled =
      (!(rule.disabled && !rule.isException owner) &&
        rule.acceptsText (effectiveValue rule.decodesBase64 (a.value.getD ""))) := by
  have hdecided : decideAttribute (some rule) a owner = a.setEnabled (rule.accepts owner a.value) := by
    rw [decideAttribute, hl]
    rfl
  rw [hdecided]
  show rule.accepts owner a.value = _
  unfold AttributeRule.accepts
  cases (rule.disabled && !rule.isException owner) <;> rfl

/-- The text of a value with a payload: what is encoded if the spelling is the full one, and the
value itself if it lacks its padding. -/
theorem effectiveValue_encoded {header payload : String} {bytes : List Nat}
    (hcomma : ',' ∉ header.toList) (hamp : '&' ∉ header.toList)
    (hbase64 : announcesBase64 header.toList = true) (hbytes : ∀ b ∈ bytes, b < 256)
    (hspelled : compact payload = Base64.encode bytes ∨
      compact payload = Base64.unpadded bytes) :
    effectiveValue true (header ++ "," ++ payload) =
      if compact payload = Base64.encode bytes then header ++ "," ++ Utf8.decodeLossy bytes
      else header ++ "," ++ payload := by
  have hpayload : '&' ∉ payload.toList := by
    intro hmem
    have hcompact : '&' ∈ compact payload := List.mem_filter.2 ⟨hmem, by decide⟩
    have hencode : '&' ∈ Base64.encode bytes := by
      rcases hspelled with heq | heq <;> rw [heq] at hcompact
      · exact hcompact
      · exact (List.mem_filter.1 hcompact).1
    exact Base64.amp_not_mem_encode bytes hencode
  have hplain : CharacterReference.unescape (header ++ "," ++ payload) =
      header ++ "," ++ payload := by
    refine CharacterReference.unescape_of_amp_not_mem ?_
    simp [hamp, hpayload]
  unfold effectiveValue
  rw [if_pos rfl, hplain, DataUrl.reveal?_append hcomma hbase64]
  split
  · next hfull =>
    rw [hfull, Base64.decode?_encode hbytes]
    rfl
  · next hshort =>
    have hunpadded := hspelled.resolve_left hshort
    have hnone : Base64.decode? (compact payload) = none := by
      rw [hunpadded]
      exact (Base64.unpadded_cases bytes).resolve_left fun heq => hshort (hunpadded.trans heq)
    rw [hnone]
    rfl

/-- **What a rule decides about a value with an encoded payload**: if the payload is spelled with its
padding, whatever blanks stand in it, the patterns are tried on what is encoded. A payload that lacks
its padding is not read, and the patterns are tried on the value as it stands. -/
theorem enabled_decideAttribute_encoded {rule : AttributeRule} (hdecodes : rule.decodesBase64 = true)
    (hlisteners : rule.listeners = []) {header payload : String} {bytes : List Nat}
    (hcomma : ',' ∉ header.toList) (hamp : '&' ∉ header.toList)
    (hbase64 : announcesBase64 header.toList = true) (hbytes : ∀ b ∈ bytes, b < 256)
    (hspelled : compact payload = Base64.encode bytes ∨
      compact payload = Base64.unpadded bytes) {a : Attribute}
    (ha : a.value = some (header ++ "," ++ payload)) (owner : String) :
    (decideAttribute (some rule) a owner).enabled =
      (!(rule.disabled && !rule.isException owner) && rule.acceptsText
        (if compact payload = Base64.encode bytes then header ++ "," ++ Utf8.decodeLossy bytes
          else header ++ "," ++ payload)) := by
  rw [enabled_decideAttribute hlisteners, hdecodes, ha, Option.getD_some,
    effectiveValue_encoded hcomma hamp hbase64 hbytes hspelled]

/-! ### Scripts in payloads -/

/-- Addresses without scripts. -/
def scriptless : AttributeRule :=
  { name := "src", decodesBase64 := true, denied := (Pattern.compile? "<script").toList }

/-- The bytes of `<script`. -/
def scriptBytes : List Nat :=
  [0x3C, 0x73, 0x63, 0x72, 0x69, 0x70, 0x74]

/-- A payload with blanks and padding. -/
theorem enabled_decideAttribute_encoded_script :
    scriptless.acceptsText ("data:text/html;BASE64 " ++ "," ++ Utf8.decodeLossy scriptBytes) =
        false ∧
      (decideAttribute (some scriptless) (.ofValue "src" ("data:text/html;BASE64 " ++ "," ++
        "PHNj cmlw\ndA= =")) "img").enabled = false := by
  have hdenied : scriptless.acceptsText
      ("data:text/html;BASE64 " ++ "," ++ Utf8.decodeLossy scriptBytes) = false := by decide +kernel
  have hfull : compact "PHNj cmlw\ndA= =" = Base64.encode scriptBytes := by decide +kernel
  have hdecided := enabled_decideAttribute_encoded (a := .ofValue "src" ("data:text/html;BASE64 " ++
      "," ++ "PHNj cmlw\ndA= =")) (show scriptless.decodesBase64 = true from rfl) rfl (by decide)
    (by decide) (by decide +kernel) (by decide) (.inl hfull) rfl "img"
  rw [if_pos hfull, hdenied, Bool.and_false] at hdecided
  exact ⟨hdenied, hdecided⟩

/-- Without its padding the same payload is hidden. -/
theorem enabled_decideAttribute_unpadded :
    scriptless.decodesBase64 = true ∧ scriptless.listeners = [] ∧
      announcesBase64 "data:text/html;base64".toList = true ∧
      compact "PHNjcmlwdA" = Base64.unpadded scriptBytes ∧
      scriptless.acceptsText ("data:text/html;base64," ++ Utf8.decodeLossy scriptBytes) = false ∧
      (decideAttribute (some scriptless) (.ofValue "src" "data:text/html;base64,PHNjcmlwdA")
        "img").enabled = true := by
  refine ⟨rfl, rfl, ?_, ?_, ?_, ?_⟩ <;> decide +kernel

end MarkupFilter
