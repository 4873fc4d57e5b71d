import Jib.Elf.Text
import Jib.Graph.Analysis
import Jib.Graph.Description
import Jib.Graph.Pass
import Jib.Main
import Jib.Platform.Hack
import Jib.Proofs.Anticipated
import Jib.Proofs.Bits.Replicate
import Jib.Proofs.CommandLine
import Jib.Proofs.Construction.Sharing
import Jib.Proofs.DeviceTree.Building
import Jib.Proofs.Fractions
import Jib.Proofs.Integer.Division
import Jib.Proofs.Integer.Hexadecimal
import Jib.Proofs.Integer.Order
import Jib.Proofs.Integer.TwosComplement
import Jib.Proofs.MainLoop
import Jib.Proofs.Mangle
import Jib.Proofs.Memory.Failure
import Jib.Proofs.Optimizer.Folding
import Jib.Proofs.Optimizer.InPlace
import Jib.Proofs.Primitive.Raw
import Jib.Proofs.Ranges.Failures
import Jib.Proofs.Ranges.Soundness
import Jib.Proofs.References
import Jib.Proofs.Reset
import Jib.Proofs.SquareRoot
import Jib.Proofs.Sums.Comparison
import Jib.Syntax.Variables
import Jib.Workload
