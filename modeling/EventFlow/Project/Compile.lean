import EventFlow.Extraction.Model
import EventFlow.Project.Merge
import EventFlow.Store.Basic

/-!
Compiling a project: all flow files below a directory, in order of their paths.

A file that cannot be read as text, describes no model, or conflicts with an earlier one
contributes nothing, and is recorded as a failure; the next file is compiled all the same. When the
settings limit the number of failures, the files after the last one allowed are skipped. Fatal
faults, and files that a store lists but does not hold, end the compilation.
-/

namespace EventFlow.Project

/-! ## Failures -/

inductive Cause where
  | undecodable (fault : Text.Utf8.Fault)
  | refused (reason : Extraction.Reason)
  | conflict (conflict : Conflict)
  deriving DecidableEq, Repr

namespace Cause

def text : Cause → String
  | .undecodable fault => s!"Not valid UTF-8 text ({fault.reason.text} at byte {fault.start})"
  | .refused reason => reason.text
  | .conflict c => c.text

/-- What could not be done with the file. -/
def activity : Cause → String
  | .undecodable _ => "read"
  | .refused _ => "compile"
  | .conflict _ => "merge"

end Cause

structure Failure where
  path : String
  cause : Cause
  line : Option Nat := none
  slice : Option String := none
  deriving DecidableEq, Repr

namespace Failure

def place (f : Failure) : String :=
  match f.line with
  | some n => s!"{f.path}:{n}"
  | none => f.path

def text (f : Failure) : String :=
  match f.slice with
  | some name => f.place ++ s!" [slice '{name}']: " ++ f.cause.text
  | none => f.place ++ ": " ++ f.cause.text

def warning (f : Failure) : String := "Failed to " ++ f.cause.activity ++ " " ++ f.text

end Failure

/-! ## Compilation -/

/-- What has come of the files so far. -/
structure Outcome where
  merge : Merge := {}
  compiled : List String := []
  failures : List Failure := []
  skipped : List String := []
  warnings : List String := []
  deriving DecidableEq, Repr

namespace Outcome

def model (o : Outcome) : Model := o.merge.model

def ok (o : Outcome) : Bool := o.failures.isEmpty

def stoppedEarly (o : Outcome) : Bool := !o.skipped.isEmpty

def fail (o : Outcome) (f : Failure) : Outcome :=
  { o with failures := o.failures ++ [f], warnings := o.warnings ++ [f.warning] }

def warn (o : Outcome) (warnings : List String) : Outcome :=
  { o with warnings := o.warnings ++ warnings }

/-- Adds the model of a file, unless it conflicts with those before it. -/
def absorb (o : Outcome) (path : String) (model : Model) : Outcome :=
  match o.merge.conflict? model with
  | some c => o.fail ⟨path, .conflict c, none, none⟩
  | none => { o with merge := o.merge.add path model, compiled := o.compiled ++ [path] }

/-- Leaves out the remaining files. -/
def stop (o : Outcome) (rest : List String) : Outcome :=
  { o with
    skipped := rest
    warnings := o.warnings ++
      [s!"Stopping after {o.failures.length} failure(s); {rest.length} file(s) not compiled"] }

end Outcome

/-- Why a compilation ends without an outcome. -/
inductive Abort where
  | store (fault : Store.Fault)
  | source (path : String) (complaint : Complaint Extraction.Reason)
  deriving DecidableEq, Repr

def Abort.text : Abort → String
  | .store fault => fault.text
  | .source path complaint => complaint.message (·.text) path

/-- Compiles the text of one file. -/
def compileText (config : Config) (o : Outcome) (path text : String) : Except Abort Outcome :=
  let o := o.warn (Extraction.warnings text)
  match Extraction.extract config text with
  | .ok model => .ok (o.absorb path model)
  | .error c =>
    if c.fault.isFatal then .error (.source path c)
    else .ok (o.fail ⟨path, .refused c.fault, c.line, c.slice⟩)

variable {σ : Type} [Store σ]

/-- Compiles one file of a store. -/
def compileFile (config : Config) (store : σ) (o : Outcome) (path : String) :
    Except Abort Outcome :=
  match Store.read store path with
  | .ok text => compileText config o path text
  | .error (.undecodable fault) => .ok (o.fail ⟨path, .undecodable fault, none, none⟩)
  | .error fault => .error (.store fault)

/-- Whether the number of failures has reached its limit. -/
def limitReached (config : Config) (o : Outcome) : Bool :=
  match config.maxFailures with
  | some n => n ≤ o.failures.length
  | none => false

/-- Compiles the given files in order. -/
def compileFiles (config : Config) (store : σ) (o : Outcome) :
    List String → Except Abort Outcome
  | [] => .ok o
  | path :: rest =>
    if limitReached config o then .ok (o.stop (path :: rest))
    else do
      let o ← compileFile config store o path
      compileFiles config store o rest

/-- The flow files below a directory, in order. -/
def flowFiles (config : Config) (store : σ) (root : String) : List String :=
  (Store.list store root).filter fun path => Text.endsWith config.flowFileSuffix path.toList

/-- Compiles every flow file below a directory. -/
def compile (config : Config) (store : σ) (root : String) : Except Abort Outcome :=
  compileFiles config store {} (flowFiles config store root)

end EventFlow.Project
