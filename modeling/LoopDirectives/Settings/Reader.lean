import LoopDirectives.Settings
import LoopDirectives.Settings.Entry

/-!
# Reading settings

The entries of a settings file set the marker, the columns and the directories; what is not set
keeps its default. The marker must be one word.
-/

namespace LoopDirectives.Settings

def set (settings : Settings) (entry : String × Value) : Except SettingsFault Settings :=
  match entry with
  | ("reserved-prefix", .text marker) => .ok { settings with marker }
  | ("max-columns", .number columns) =>
    if columns < Text.wordLimit 64 then .ok { settings with columns? := some columns }
    else .error (.wrongKind "max-columns")
  | ("module-search-paths", .texts directories) => .ok { settings with directories }
  | (name, _) =>
    if ["reserved-prefix", "max-columns", "module-search-paths"].contains name then
      .error (.wrongKind name)
    else .error (.unknown name)

/-- The settings that a text gives, before their values are looked at. -/
def readEntries (text : String) : Except SettingsFault Settings := do
  (← entries text).foldlM set {}

def isWord (text : String) : Bool :=
  !text.isEmpty && !text.toList.any Text.isBlank

def read (text : String) : Except SettingsError Settings :=
  match readEntries text with
  | .error fault => .error (.malformed fault)
  | .ok settings =>
    if isWord settings.marker then .ok settings else .error (.badMarker settings.marker)

def readAt (files : Files) (path : String) : Except SettingsError Settings :=
  match files.read path with
  | .error reason => .error (.unreadable path reason)
  | .ok text => read text

end LoopDirectives.Settings
