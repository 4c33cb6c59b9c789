import EventFlow.Main
import EventFlow.Project.Settings
import EventFlow.Proofs.Declaration.Chain
import EventFlow.Proofs.Declaration.Leading
import EventFlow.Proofs.Declaration.Spans
import EventFlow.Proofs.Document.Normal
import EventFlow.Proofs.Emission.Description
import EventFlow.Proofs.Emission.ImportLine
import EventFlow.Proofs.Emission.Parts
import EventFlow.Proofs.Emission.Quoted
import EventFlow.Proofs.Emission.Request
import EventFlow.Proofs.Emission.Stub
import EventFlow.Proofs.Extraction.SameLine
import EventFlow.Proofs.Extraction.Stubs
import EventFlow.Proofs.Program.Bounds
import EventFlow.Proofs.Project.Abort
import EventFlow.Proofs.Project.Invariant
import EventFlow.Proofs.Project.Wording
import EventFlow.Proofs.Token.Joined
import EventFlow.Proofs.Token.Squeezed
