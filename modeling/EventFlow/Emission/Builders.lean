import EventFlow.Text.Line

/-!
The declaration of the builders: functions that make examples of each message.
-/

namespace EventFlow.Emission

/-- The union of some types, each named once; of no types it is `never`. -/
def unionType (names : List String) : String :=
  match names.eraseDups with
  | [] => "never"
  | unique => Text.joinWith " | " unique

/-- The type of an object with the data of each state under its name. -/
def stateMapType (names : List String) : String :=
  match names.eraseDups with
  | [] => "{}"
  | unique => r"{ " ++ Text.joinWith "; " (unique.map fun n => n ++ ": " ++ n ++ "['data']") ++
    r" }"

def builderLines (events commands states : List String) : List String :=
  ["const { Events, Commands, State } = createBuilders()",
    "  .events<" ++ unionType events ++ ">()",
    "  .commands<" ++ unionType commands ++ ">()",
    "  .state<" ++ stateMapType states ++ ">();"]

end EventFlow.Emission
