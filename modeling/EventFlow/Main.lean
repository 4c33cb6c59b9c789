import EventFlow.Demo
import EventFlow.Store.Directory

/-!
The command line of the demonstration.

Without arguments it runs on the example model. Otherwise the first argument names a directory and
the others are paths of files in it, which make up the project; its schema is written into the
directory. A fault is told on standard error, and the exit code is then 1.
-/

namespace EventFlow.Demo

/-- Writes the bytes of each file into a directory. -/
def directoryOf (base : String) (files : List (String × List UInt8)) :
    Except Store.Fault Directory :=
  files.foldlM (fun d (path, bytes) => d.writeBytes path bytes) { base := base }

/-- The text to print and the schema of a project, given by its files. -/
def runProject (base : String) (files : List (String × List UInt8)) :
    Except Fault (String × Option (List UInt8)) := do
  let d ← (directoryOf base files).mapError .store
  let (text, d) ← onProject base d
  return (text, d.bytes? (Directory.parts (Project.schemaPath {} none)))

/-! ## Input and output -/

def readFiles (base : String) (paths : List String) : IO (List (String × List UInt8)) :=
  paths.mapM fun path => do
    let place := Directory.joined [base, path]
    let bytes ← IO.FS.readBinFile place
    return (path, bytes.toList)

def writeSchemaFile (base : String) (bytes : List UInt8) : IO Unit := do
  let path := Directory.parts (Project.schemaPath {} none)
  IO.FS.createDirAll (Directory.joined (base :: path.dropLast))
  IO.FS.writeBinFile (Directory.joined (base :: path)) ⟨bytes.toArray⟩

def complain (fault : Fault) : IO UInt32 := do
  IO.eprintln fault.text
  return 1

end EventFlow.Demo

open EventFlow in
def main (args : List String) : IO UInt32 := do
  match args with
  | [] =>
    match Demo.onExample with
    | .error fault => Demo.complain fault
    | .ok text =>
      IO.print text
      return 0
  | base :: paths =>
    match Demo.runProject base (← Demo.readFiles base paths) with
    | .error fault => Demo.complain fault
    | .ok (text, schema) =>
      IO.print text
      schema.forM (Demo.writeSchemaFile base)
      return 0
