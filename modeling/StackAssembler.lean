import StackAssembler.Command.Folder
import StackAssembler.ErrorType.Printer
import StackAssembler.Execution
import StackAssembler.Main
import StackAssembler.Proofs.FunctionalForm
import StackAssembler.Proofs.LayoutIndependence
import StackAssembler.Proofs.Machine.Transition
import StackAssembler.Proofs.StaticDepth
import StackAssembler.Proofs.StackEffects
import StackAssembler.Proofs.ControlFlow
import StackAssembler.Proofs.Disassembly
import StackAssembler.Proofs.Assembly.Walk
import StackAssembler.Proofs.Assembly.LabelReach
import StackAssembler.Proofs.CompileOutcome
import StackAssembler.Proofs.SlotAddressing
import StackAssembler.Proofs.OperandEncoding
import StackAssembler.Proofs.MachineSafety
import StackAssembler.Proofs.MemoryRefinement
import StackAssembler.Proofs.Machine.Crossing
import StackAssembler.Proofs.NormalForm
import StackAssembler.Proofs.ArgumentFrame
import StackAssembler.Proofs.StraightLine
import StackAssembler.Proofs.ZeroTail
import StackAssembler.Proofs.SamplePrograms
import StackAssembler.Proofs.ErrorType.Generated
import StackAssembler.Proofs.ErrorType.NameResolution
import StackAssembler.Proofs.ErrorType.FormatString
import StackAssembler.Proofs.ErrorType.FromPlacement
import StackAssembler.Proofs.ErrorType.MessageSearch
import StackAssembler.Proofs.ErrorType.MessageRendering
import StackAssembler.Proofs.LabelWidth
import StackAssembler.Proofs.MemoryBounds
import StackAssembler.Proofs.StackMarker
import StackAssembler.Proofs.LabelRenaming
import StackAssembler.Proofs.StackLimit
import StackAssembler.Proofs.Concatenation
import StackAssembler.Proofs.ExactArithmetic
import StackAssembler.Proofs.CalldataReads
import StackAssembler.Proofs.CalldataIndependence
import StackAssembler.Proofs.Command.Options
import StackAssembler.Proofs.ErrorType.EnumExpansion
import StackAssembler.Proofs.Command.Stages
import StackAssembler.Proofs.TrackerRecovery
