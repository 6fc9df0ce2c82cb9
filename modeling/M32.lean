import M32.Command.Folder
import M32.Main
import M32.Proofs.Assembly.Image
import M32.Proofs.Assembly.InPlace
import M32.Proofs.Assembly.Labels
import M32.Proofs.Assembly.Statement.Operands
import M32.Proofs.Assembly.Stream.Output
import M32.Proofs.Command.Assemble
import M32.Proofs.Instr.Decoded
import M32.Proofs.Lang.Code.Boundaries
import M32.Proofs.Lang.Code.Calls
import M32.Proofs.Lang.Code.Sizes
import M32.Proofs.Lang.Code.Spared
import M32.Proofs.Lang.Grammar.Read.Programs
import M32.Proofs.Lang.Objects
import M32.Proofs.Lang.Regions
import M32.Proofs.Lang.Run.Programs
import M32.Proofs.Lang.Scope.Contiguous
import M32.Proofs.Lang.StackLimit
import M32.Proofs.Lang.Token.Cut
import M32.Proofs.Lang.Tree.Printed
import M32.Proofs.Machine.Accesses
import M32.Proofs.Machine.Budget
import M32.Proofs.Machine.ImageEnd
import M32.Proofs.Pseudo.ControlBlock
