import MarkupFilter.Text.AsciiCase
import MarkupFilter.Text.Base64
import MarkupFilter.Text.Blank
import MarkupFilter.Text.Utf8

/-!
# Addresses that carry their data

In `data:text/html;base64,PHA+` the part after the first comma is encoded. `DataUrl.reveal?`
writes it out, so that patterns see what a browser will see.

## Main definitions

* `DataUrl.split?` — the parts before and after the first comma.
* `DataUrl.reveal?` — the address with its base64 payload decoded.
-/

set_option autoImplicit false

namespace MarkupFilter.DataUrl

/-- The parts of `cs` before and after its first comma. -/
def split? : List Char → Option (List Char × List Char)
  | [] => none
  | c :: rest => if c = ',' then some ([], rest) else (split? rest).map fun (a, b) => (c :: a, b)

/-- Whether the part before the comma announces base64: it ends in that word in any ASCII case,
blanks at its end aside. -/
def announcesBase64 (header : List Char) : Bool :=
  ['b', 'a', 's', 'e', '6', '4'].isSuffixOf ((Blank.dropTrailing header).map Char.toLower)

/-- `value` with the base64 payload after its first comma decoded; ASCII blanks in the payload are
ignored, and bytes that are not UTF-8 are replaced. None when there is no such payload or it is
not canonical. -/
def reveal? (value : String) : Option String :=
  match split? value.toList with
  | none => none
  | some (header, payload) =>
    if announcesBase64 header then
      (Base64.decode? (payload.filter fun c => !Blank.isAsciiBlank c)).map fun bytes =>
        String.ofList header ++ "," ++ Utf8.decodeLossy bytes
    else none

end MarkupFilter.DataUrl
