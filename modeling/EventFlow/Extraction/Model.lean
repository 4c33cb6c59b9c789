import EventFlow.Extraction.Flow
import EventFlow.Program.Statement

/-!
The model that a flow file describes.

The type declarations are found and read first; their lines are then blanked out, so that all
others keep their numbers, and what is left is read as a program.
-/

namespace EventFlow.Extraction

/-- The lines of a file; a carriage return before a line break belongs to it. -/
def linesOf (source : String) : List String :=
  (Text.cut '\n' (Text.replaceAll "\r\n" "\n" source.toList)).map String.ofList

/-- The lines that declarations and the comments above them take up. -/
def declarationLines (ds : List Declaration) (declared : Declared) : List Nat :=
  ds.flatMap (fun d => (List.range (d.stop + 1 - d.start)).map (d.start + ·)) ++ declared.docLines

/-- The lines with those of the given numbers empty. -/
def blankLines (taken : List Nat) (lines : List String) : List String :=
  lines.zipIdx.map fun (line, i) => if taken.contains i then "" else line

/-- The statements of a program that is nested at most `depth` levels deep. -/
def programOf (depth : Nat) (source : List Char) :
    Except (Complaint Reason) (List Statement) :=
  match Token.tokenizeFrom 1 source with
  | .error c => .error (c.map .lexical)
  | .ok tokens =>
    match Program.parseWithin depth source tokens with
    | .error c => .error (c.map .program)
    | .ok program => .ok program

/-- The model of a program whose type declarations are known. -/
def modelOf (config : Config) (declared : Declared) (program : List Statement) :
    Except (Complaint Reason) Model :=
  match flowsOf config config.nestingLimit declared program {} with
  | .error c => .error (c.map .flow)
  | .ok (flows, findings) =>
    .ok ⟨flows, declared.messages ++ findings.stubs, findings.integrations⟩

/-- The model that a flow file describes. -/
def extract (config : Config) (source : String) : Except (Complaint Reason) Model :=
  let lines := linesOf source
  let ds := Declaration.scan lines
  match Declaration.table config.nestingLimit lines ds with
  | .error c => .error (c.map .declaration)
  | .ok declared => do
    let rest := blankLines (declarationLines ds declared) lines
    let program ← programOf config.nestingLimit (Text.unlines rest).toList
    modelOf config declared program

theorem exists_of_modelOf {config : Config} {declared : Declared} {program : List Statement}
    {m : Model} (h : modelOf config declared program = .ok m) :
    ∃ flows f, flowsOf config config.nestingLimit declared program {} = .ok (flows, f) ∧
      m = ⟨flows, declared.messages ++ f.stubs, f.integrations⟩ := by
  unfold modelOf at h
  split at h
  · cases h
  · next flows f hflows => exact ⟨flows, f, hflows, (Except.ok.inj h).symm⟩

/-- A model is extracted only if the declarations are read, and the program that is left. -/
theorem exists_of_extract {config : Config} {source : String} {m : Model}
    (h : extract config source = .ok m) :
    ∃ declared program,
      Declaration.table config.nestingLimit (linesOf source) (Declaration.scan (linesOf source)) =
        .ok declared ∧
      programOf config.nestingLimit (Text.unlines (blankLines (declarationLines
        (Declaration.scan (linesOf source)) declared) (linesOf source))).toList = .ok program ∧
      modelOf config declared program = .ok m := by
  unfold extract at h
  dsimp only at h
  split at h
  · cases h
  · next declared htable =>
    cases hprogram : programOf config.nestingLimit (Text.unlines (blankLines (declarationLines
        (Declaration.scan (linesOf source)) declared) (linesOf source))).toList with
    | error c =>
      rw [hprogram] at h
      cases h
    | ok program =>
      rw [hprogram] at h
      exact ⟨declared, program, htable, hprogram, h⟩

/-- What is worth a warning in a flow file, whether or not it describes a model. -/
def warnings (source : String) : List String :=
  Declaration.warnings (Declaration.scan (linesOf source))

end EventFlow.Extraction
