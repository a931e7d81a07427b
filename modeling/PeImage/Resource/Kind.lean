/-!
# Resource kinds

The numbers that stand for well-known kinds of resources at the first level of a resource tree.
-/

namespace PeImage

/-- A well-known kind of resource. -/
inductive ResourceKind
  | cursor | bitmap | icon | menu
  | dialog | string | fontDirectory | font
  | accelerator | rcData | messageTable | groupCursor
  | groupIcon | version | dialogInclude | plugPlay
  | vxd | animatedCursor | animatedIcon | html
  | manifest
  deriving DecidableEq, Repr

namespace ResourceKind

/-- The kinds in the order of their numbers. -/
def all : List ResourceKind :=
  [cursor, bitmap, icon, menu,
    dialog, string, fontDirectory, font,
    accelerator, rcData, messageTable, groupCursor,
    groupIcon, version, dialogInclude, plugPlay,
    vxd, animatedCursor, animatedIcon, html,
    manifest]

/-- The number of a kind. -/
def number : ResourceKind → UInt32
  | cursor => 1
  | bitmap => 2
  | icon => 3
  | menu => 4
  | dialog => 5
  | string => 6
  | fontDirectory => 7
  | font => 8
  | accelerator => 9
  | rcData => 10
  | messageTable => 11
  | groupCursor => 12
  | groupIcon => 14
  | version => 16
  | dialogInclude => 17
  | plugPlay => 19
  | vxd => 20
  | animatedCursor => 21
  | animatedIcon => 22
  | html => 23
  | manifest => 24

/-- The kind of a number. -/
def ofNumber? (number : UInt32) : Option ResourceKind := all.find? (·.number = number)

/-- The name of a kind. -/
def name : ResourceKind → String
  | cursor => "Cursor"
  | bitmap => "Bitmap"
  | icon => "Icon"
  | menu => "Menu"
  | dialog => "Dialog"
  | string => "String"
  | fontDirectory => "FontDir"
  | font => "Font"
  | accelerator => "Accelerator"
  | rcData => "RcData"
  | messageTable => "MessageTable"
  | groupCursor => "GroupCursor"
  | groupIcon => "GroupIcon"
  | version => "Version"
  | dialogInclude => "DlgInclude"
  | plugPlay => "PlugPlay"
  | vxd => "Vxd"
  | animatedCursor => "AniCursor"
  | animatedIcon => "AniIcon"
  | html => "Html"
  | manifest => "Manifest"

/-- Every kind is found by its number. -/
@[simp] theorem ofNumber?_number (kind : ResourceKind) : ofNumber? kind.number = some kind := by
  cases kind <;> rfl

end ResourceKind

end PeImage
