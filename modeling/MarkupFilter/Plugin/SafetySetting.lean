import MarkupFilter.Markup.Attributes

/-!
# Safety settings of plugins

Content that a plugin shows is controlled by ten settings, written as `<param>` elements inside an
`<object>` or as attributes of an `<embed>`. Each has a value that is safe.

## Main definitions

* `SafetySetting` — the settings.
* `SafetySetting.all` — all of them, in the order in which they are written.
* `Networking` — how far content may use the network.
* `SafetySetting.value` — the value that is forced on a setting.
-/

set_option autoImplicit false

namespace MarkupFilter

/-- A setting that limits what plugin content can do. -/
inductive SafetySetting where
  | invokeURLs
  | autostart
  | allowScriptAccess
  | allowNetworking
  | autoplay
  | enablehref
  | enablejavascript
  | nojava
  | allowHtmlPopupwindow
  | enableHtmlAccess
  deriving DecidableEq, Repr

/-- How far plugin content may use the network. -/
inductive Networking where
  /-- Not beyond the page. -/
  | internal
  /-- Freely. -/
  | all
  deriving DecidableEq, Repr

/-- The value of the networking setting. -/
def Networking.value : Networking → String
  | .internal => "internal"
  | .all => "all"

namespace SafetySetting

/-- All settings, in the order in which they are written. -/
def all : List SafetySetting :=
  [.invokeURLs, .autostart, .allowScriptAccess, .allowNetworking, .autoplay, .enablehref,
    .enablejavascript, .nojava, .allowHtmlPopupwindow, .enableHtmlAccess]

/-- The name by which a setting is written. -/
def name : SafetySetting → String
  | .invokeURLs => "invokeURLs"
  | .autostart => "autostart"
  | .allowScriptAccess => "allowScriptAccess"
  | .allowNetworking => "allowNetworking"
  | .autoplay => "autoplay"
  | .enablehref => "enablehref"
  | .enablejavascript => "enablejavascript"
  | .nojava => "nojava"
  | .allowHtmlPopupwindow => "AllowHtmlPopupwindow"
  | .enableHtmlAccess => "enableHtmlAccess"

/-- The setting of a name, up to letter case. -/
def ofName? (name : String) : Option SafetySetting :=
  all.find? fun s => AsciiCase.same s.name name

/-- The safe value of a setting, where content may use the network as far as `networking` says. -/
def value (networking : Networking) : SafetySetting → String
  | .allowScriptAccess => "never"
  | .nojava => "true"
  | .allowNetworking => networking.value
  | _ => "false"

/-- Every setting is in the list. -/
theorem mem_all (s : SafetySetting) : s ∈ all := by
  cases s <;> simp [all]

end SafetySetting

end MarkupFilter
