import R3000.Word.Lane
import R3000.Text.HexDump
import R3000.Address
import R3000.Instruction.Assembly
import R3000.Exception
import R3000.Kernel
import R3000.MulDiv
import R3000.Gte
import R3000.Cop0.Status
import R3000.Cop0.Cause
import R3000.Cop0.Dcic
import R3000.Report
import R3000.MulDiv.Unit
import R3000.DelaySlots
import R3000.Caches
import R3000.Memory
import R3000.MemoryControl
import R3000.Serial
import R3000.Bus.Transfer
import R3000.Machine
import R3000.Machine.Step
import R3000.Description
import R3000.Machine.Host
import R3000.Savestate
import R3000.Machine.Readings
import R3000.Proofs.SavestateTransparency
import R3000.Proofs.DeviceTime
import R3000.Proofs.PreciseExceptions
import R3000.Proofs.OperandClosure
import R3000.Proofs.OperandFrame
import R3000.Proofs.StepCourse
import R3000.Proofs.BranchDelay
import R3000.Proofs.LoadDelay
import R3000.Proofs.DeviceAddresses
import R3000.Proofs.Restraint
import R3000.Proofs.ExceptionEntry
import R3000.Proofs.UserMode
import R3000.Proofs.InterruptDelivery
import R3000.Proofs.DataCache
import R3000.Proofs.DmaCompletion
import R3000.Proofs.SerialListener
import R3000.Proofs.SerialTransmission
import R3000.Proofs.ReadStalls
import R3000.Proofs.InstructionCache
import R3000.Proofs.KeptTime
import R3000.Proofs.ColdReset
import R3000.Proofs.PromptTransfers
import R3000.Proofs.CopyProvenance
import R3000.Proofs.CacheIsolation
import R3000.Proofs.Runs
import R3000.Proofs.OrderingTables
import R3000.Proofs.UnalignedPairs
import R3000.Proofs.EffectiveAddresses
import R3000.Proofs.RefusedRefills
import R3000.Proofs.WriteOnlyStores
import R3000.Proofs.AcceptedSavestates
import R3000.Proofs.ExactResults
import R3000.Proofs.TruncatedSavestates
import R3000.Proofs.RamBytes
import R3000.Proofs.InterruptRequests
import R3000.Proofs.InstructionWords
import R3000.Proofs.DmaAddresses
import R3000.Proofs.LaneBytes
