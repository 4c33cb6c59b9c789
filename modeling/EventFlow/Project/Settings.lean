import EventFlow.Config
import EventFlow.Store.Directory
import EventFlow.Yaml.Reader

/-!
Settings in a file of the project.
-/

namespace EventFlow.Project

/-- Why there are no settings. -/
inductive SettingsFault where
  | missing (path : String)
  | unreadable (fault : Store.Fault)
  | malformed (fault : Yaml.Fault)
  | invalid (fault : Config.Fault)
  deriving DecidableEq, Repr

def SettingsFault.text : SettingsFault → String
  | .missing path => s!"Config file not found: {path}"
  | .unreadable fault => fault.text
  | .malformed _ => "Invalid YAML"
  | .invalid fault => fault.text

/-- The settings that a text gives. -/
def settingsOf (text : String) : Except SettingsFault Config :=
  match Yaml.read text with
  | .error fault => .error (.malformed fault)
  | .ok value =>
    match Config.ofJson value with
    | .error fault => .error (.invalid fault)
    | .ok config => .ok config

/-- The settings in a file. -/
def loadSettings (d : Directory) (path : String) : Except SettingsFault Config :=
  if !Store.has d path then .error (.missing (d.located path))
  else
    match Store.read d path with
    | .error fault => .error (.unreadable fault)
    | .ok text => settingsOf text

end EventFlow.Project
