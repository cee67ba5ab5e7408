import I386Vm.Proofs.Straight
import I386Vm.Proofs.Reserved
import I386Vm.Proofs.Operands
import I386Vm.Proofs.Signed
import I386Vm.Proofs.Compare
import I386Vm.Proofs.Branch
import I386Vm.Proofs.SetByte
import I386Vm.Proofs.SameFlags
import I386Vm.Lib.Limbs
import I386Vm.Proofs.MultiWord
import I386Vm.Proofs.Aliasing
import I386Vm.Proofs.Footprint
import I386Vm.Proofs.Progress
import I386Vm.Proofs.Nesting
import I386Vm.Proofs.Leave
import I386Vm.Proofs.Loops
import I386Vm.Proofs.Moves
import I386Vm.Proofs.Scans
import I386Vm.Proofs.Breakpoints
import I386Vm.Proofs.ThreadLocal
import I386Vm.Proofs.ProcessStack
import I386Vm.Proofs.TwoWays
import I386Vm.Proofs.DecimalRuns
import I386Vm.Proofs.ElfImage
import I386Vm.Proofs.Interrupts
import I386Vm.Proofs.Buffers
import I386Vm.Proofs.Errno
import I386Vm.Proofs.Exit
import I386Vm.Proofs.Address
import I386Vm.Proofs.Differences
import I386Vm.Proofs.Negation
import I386Vm.Proofs.Test
import I386Vm.Proofs.SaveAreas
import I386Vm.Proofs.Factors
import I386Vm.Proofs.SignedDivide
import I386Vm.Proofs.Shifts
import I386Vm.Proofs.CarryRotates
import I386Vm.Proofs.DoubleShift
import I386Vm.Proofs.BitTests
import I386Vm.Proofs.BitScans
import I386Vm.Proofs.PushPop
import I386Vm.Proofs.Fills
import I386Vm.Proofs.DescriptorTables
import I386Vm.Proofs.CodeView
import I386Vm.Proofs.Vectors
import I386Vm.Proofs.Displays
import I386Vm.Proofs.Increments
import I386Vm.Proofs.Protected
import I386Vm.Proofs.Sessions
import I386Vm.Proofs.Euclid
import I386Vm.Proofs.Processes
import I386Vm.Proofs.LoadedImage
import I386Vm.Proofs.Boot
import I386Vm.Proofs.FileSymbols
