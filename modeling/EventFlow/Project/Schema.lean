import EventFlow.Config
import EventFlow.Document.Decode
import EventFlow.Document.Encode
import EventFlow.Emission.Source
import EventFlow.Json.Reader
import EventFlow.Json.Writer
import EventFlow.Store.Basic

/-!
Schemas and generated sources in a store.

A schema is the document of a model in normal form.
-/

namespace EventFlow.Project

variable {σ : Type} [Store σ]

/-- The path of the schema: the one that is given, or that of the settings. -/
def schemaPath (config : Config) (path : Option String) : String :=
  match path with
  | some p => if p.isEmpty then config.schemaPath else p
  | none => config.schemaPath

/-- Why a schema cannot be written. -/
inductive WriteFault where
  | store (fault : Store.Fault)
  | longNumber
  deriving DecidableEq, Repr

def WriteFault.text : WriteFault → String
  | .store fault => fault.text
  | .longNumber => Number.longNumberText

def writeSchema (store : σ) (path : String) (schema : Json) : Except WriteFault σ :=
  match schema.document? with
  | some text => (Store.write store path text).mapError .store
  | none => .error .longNumber

/-- Why there is no schema to be read. -/
inductive SchemaFault where
  | store (fault : Store.Fault)
  | json (error : Json.ReadError)
  | document (fault : Document.Fault)
  deriving DecidableEq, Repr

def readSchema (store : σ) (path : String) : Except SchemaFault Json :=
  match Store.read store path with
  | .error fault => .error (.store fault)
  | .ok text =>
    match Json.read text with
    | .error e => .error (.json e)
    | .ok value =>
      match Document.normalize value with
      | .error fault => .error (.document fault)
      | .ok schema => .ok schema

/-- Why no source can be written. -/
inductive SourceFault where
  | store (fault : Store.Fault)
  | emission (fault : Emission.Fault)
  deriving DecidableEq, Repr

/-- Writes the source text of a model. -/
def writeSource {τ β ν : Type} [Leaf τ] [Leaf β] [Leaf ν] (config : Config) (store : σ)
    (path : String) (model : Model τ β ν) : Except SourceFault σ :=
  match Emission.generate config model with
  | .error fault => .error (.emission fault)
  | .ok source =>
    match Store.write store path source with
    | .error fault => .error (.store fault)
    | .ok store => .ok store

end EventFlow.Project
