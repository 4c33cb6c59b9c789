import EventFlow.Json.Shown

/-!
What can be wrong with a model document.
-/

namespace EventFlow.Document

inductive Fault where
  | missing (key : String)
  | unknownTarget (value : Json)
  | wrongType
  | notAnObject
  | notAMember (value : Json) (enumeration : String)
  | unsupportedDestination (type : Json)
  | unsupportedOrigin (type : Json)
  | neitherDestinationNorOrigin
  deriving DecidableEq, Repr

def Fault.text : Fault → String
  | .missing key => Text.shown key
  | .unknownTarget value => value.shown
  | .wrongType => "A value of another type is needed"
  | .notAnObject => "An object is needed"
  | .notAMember value enumeration => s!"{value.shown} is not a valid {enumeration}"
  | .unsupportedDestination type => s!"Unsupported destination dict type: {type.display}"
  | .unsupportedOrigin type => s!"Unsupported origin dict type: {type.display}"
  | .neitherDestinationNorOrigin => "Pipeline entry needs a destination or an origin"

end EventFlow.Document
