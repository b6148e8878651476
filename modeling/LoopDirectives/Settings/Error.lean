import LoopDirectives.Files

/-!
# What can be wrong with settings

One cause per kind of fault in a settings file. `SettingsError.message` is the wording of each.
-/

namespace LoopDirectives

inductive SettingsFault where
  | unexpectedCharacter (c : Char)
  | badEscape
  /-- The text ends inside a quoted text, or a carriage return has no line feed. -/
  | unclosed
  /-- A word, a quoted text or a sign stands where it cannot. -/
  | unexpectedToken
  | notANumber (text : String)
  | repeated (name : String)
  | unknown (name : String)
  | wrongKind (name : String)
  deriving DecidableEq

def SettingsFault.message : SettingsFault → String
  | unexpectedCharacter c => "unexpected character `" ++ String.singleton c ++ "`"
  | badEscape => "invalid escape in a quoted text"
  | unclosed => "unexpected end"
  | unexpectedToken => "expected `name = value`"
  | notANumber text => "invalid number `" ++ text ++ "`"
  | repeated name => "duplicate setting `" ++ name ++ "`"
  | unknown name => "unknown setting `" ++ name ++ "`"
  | wrongKind name => "invalid value of `" ++ name ++ "`"

inductive SettingsError where
  | unreadable (path : String) (reason : FileError)
  | malformed (fault : SettingsFault)
  | badMarker (marker : String)
  deriving DecidableEq

namespace SettingsError

def message : SettingsError → String
  | unreadable path reason => "Cannot read config file `" ++ path ++ "`: " ++ reason.message
  | malformed fault => "Invalid config: " ++ fault.message
  | badMarker marker =>
    "Invalid config: reserved-prefix must be a single word, got `" ++ marker ++ "`"

def code : SettingsError → String
  | unreadable _ _ => "loopsmith::config::IOError"
  | malformed _ => "loopsmith::config::Parse"
  | badMarker _ => "loopsmith::config::Parse"

end SettingsError

end LoopDirectives
