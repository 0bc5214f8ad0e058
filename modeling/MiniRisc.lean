import MiniRisc.Assembly.Session
import MiniRisc.Main
import MiniRisc.Proofs.Architecture.Refinement
import MiniRisc.Proofs.Assembly.Shared
import MiniRisc.Proofs.Command.Ending
import MiniRisc.Proofs.Machine.Cells
import MiniRisc.Proofs.Machine.Forward
import MiniRisc.Proofs.Machine.Growth
import MiniRisc.Proofs.Machine.Ignored
import MiniRisc.Proofs.Machine.Resume
import MiniRisc.Proofs.Machine.Return
import MiniRisc.Proofs.Machine.Session
import MiniRisc.Proofs.Machine.Streams
import MiniRisc.Proofs.Program.Canonical
import MiniRisc.Proofs.Program.Composition
import MiniRisc.Proofs.Program.Diagnostic
import MiniRisc.Proofs.Program.Endings
import MiniRisc.Proofs.Program.ImageRun
import MiniRisc.Proofs.Program.Layout
import MiniRisc.Proofs.Program.Numeral
import MiniRisc.Proofs.Program.Renaming
import MiniRisc.Proofs.Program.Rendering
import MiniRisc.Proofs.Program.SourceLines
import MiniRisc.Proofs.Statement.Exact
import MiniRisc.Proofs.Statement.Position
import MiniRisc.Proofs.Token.FirstFault
import MiniRisc.Proofs.Token.Requests
import MiniRisc.Proofs.Word.Division
import MiniRisc.Command.Folder
