import MarkupFilter.Markup.Element
import MarkupFilter.Plugin.SafetySetting
import MarkupFilter.Plugin.UrlAllowList

/-!
# Guarding objects

Every open `<object>` has a frame, which tells the settings that `<param>` elements have given
since it was opened, and how far the last address among them lets it use the network. What an
object was not given is written before its end tag.

Objects are numbered as they are opened. A `<param>` counts for every object that is open, however
many there are, so the guard does not write it into each frame: it notes once how many objects had
been opened by then, and a frame is read off these notes.

## Main definitions

* `ObjectFrame` — what is known of an open object.
* `ObjectGuard` — the open objects and what was given when.
* `ObjectGuard.frame` — the frame of an object.
* `ObjectGuard.open`, `ObjectGuard.param`, `ObjectGuard.close` — the changes of the guard.
* `ObjectGuard.embed` — the settings of an `<embed>`.
-/

set_option autoImplicit false

namespace MarkupFilter

/-- What is known of an open object: its number, the settings given in it, and how far it may use
the network. -/
structure ObjectFrame where
  key : Nat
  given : List SafetySetting := []
  networking : Networking := .internal
  deriving DecidableEq, Repr

/-- The settings that an object was not given, with their values. -/
def ObjectFrame.missing (f : ObjectFrame) : List (String × String) :=
  (SafetySetting.all.filter fun s => !f.given.contains s).map fun s =>
    (s.name, s.value f.networking)

/-- The open objects, and what parameters have given so far. -/
structure ObjectGuard where
  /-- The numbers of the open objects, the innermost first. -/
  openKeys : List Nat := []
  /-- The number of the next object, which is also how many have been opened. -/
  nextKey : Nat := 0
  /-- The settings given so far, each with how many objects had been opened by the last time. -/
  given : List (SafetySetting × Nat) := []
  /-- How far the last address may use the network, and how many objects had been opened by
  then. -/
  address? : Option (Networking × Nat) := none
  deriving DecidableEq, Repr

namespace ObjectGuard

/-- Whether a parameter of this name gives an address that the plugin loads. -/
def namesUrl (name : String) : Bool :=
  ["url", "href", "src", "movie"].any fun known => AsciiCase.same known name

/-- How far content from `url` may use the network. -/
def networkingOf (urls : UrlAllowList) (url : String) : Networking :=
  if urls.allows url then .all else .internal

/-! ## Frames -/

/-- Whether a setting was given after the object with the given key was opened. -/
def gives (g : ObjectGuard) (key : Nat) (s : SafetySetting) : Bool :=
  (g.given.lookup s).any fun opened => key < opened

/-- How far the object with the given key may use the network: as far as the last address, if that
was given after the object was opened. -/
def networkingIn (g : ObjectGuard) (key : Nat) : Networking :=
  match g.address? with
  | some (networking, opened) => if key < opened then networking else .internal
  | none => .internal

/-- The frame of the object with the given key. -/
def frame (g : ObjectGuard) (key : Nat) : ObjectFrame :=
  ⟨key, SafetySetting.all.filter (g.gives key), g.networkingIn key⟩

/-- How far the innermost open object may use the network. -/
def networking (g : ObjectGuard) : Networking :=
  match g.openKeys with
  | key :: _ => g.networkingIn key
  | [] => .internal

/-! ## Changes -/

/-- The guard after the start of an object, and the key of its frame. -/
def «open» (g : ObjectGuard) : Nat × ObjectGuard :=
  (g.nextKey, { g with openKeys := g.nextKey :: g.openKeys, nextKey := g.nextKey + 1 })

/-- The guard after a parameter of the given name has given the address `value?`, if the name is
one that gives addresses: it counts for all open objects. -/
def recordUrl (urls : UrlAllowList) (name : String) (value? : Option String) (g : ObjectGuard) :
    ObjectGuard :=
  match namesUrl name, value? with
  | true, some url => { g with address? := some (networkingOf urls url, g.nextKey) }
  | _, _ => g

/-- The guard after a setting was given: it counts for all open objects. -/
def recordSetting (s : SafetySetting) (g : ObjectGuard) : ObjectGuard :=
  { g with given := (s, g.nextKey) :: g.given.filter fun entry => entry.1 != s }

/-- The attributes with a value forced on a name. -/
def force (name value : String) (as : Attributes) : Attributes :=
  (as.set name value).update name (·.setEnabled true)

/-- The guard after a `<param>` element, and the element with a safe value if it names a safety
setting. -/
def param (urls : UrlAllowList) (g : ObjectGuard) (e : Element) : ObjectGuard × Element :=
  match e.attributes.value? "name" with
  | none => (g, e)
  | some name =>
    let g := g.recordUrl urls name (e.attributes.value? "value")
    match SafetySetting.ofName? name with
    | none => (g, e)
    | some s =>
      let g := g.recordSetting s
      (g, e.mapAttributes (force "value" (s.value g.networking)))

/-- An `<embed>` element with all safety settings as attributes. Its own address decides how far
it may use the network. -/
def embed (urls : UrlAllowList) (e : Element) : Element :=
  let networking :=
    match e.attributes.value? "src" with
    | some src => networkingOf urls src
    | none => .internal
  e.mapAttributes fun as =>
    SafetySetting.all.foldl (fun as s => force s.name (s.value networking) as) as

/-- The guard after the end of the object with the given key, and the settings to be written
before its end tag: those it was not given, if `inject` is set and the object is open. -/
def close (g : ObjectGuard) (key : Nat) (inject : Bool) : List (String × String) × ObjectGuard :=
  if g.openKeys.contains key then
    (if inject then (g.frame key).missing else [],
      { g with openKeys := g.openKeys.erase key })
  else ([], g)

end ObjectGuard

end MarkupFilter
