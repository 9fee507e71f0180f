import R3000.Address
import R3000.Exception
import R3000.ICache.Address
import R3000.Instruction.Assembly
import R3000.Kernel
import R3000.MulDiv

/-! # Notices: what the log can show

One constructor for each thing worth a line, and one function each for how much it matters and for
its words. -/
namespace R3000

inductive Level | error | warn | info | debug | trace deriving DecidableEq

namespace Level

/-- The more severe, the lower. -/
def rank : Level → Nat
  | .error => 0 | .warn => 1 | .info => 2 | .debug => 3 | .trace => 4

def name : Level → String
  | .error => "ERROR" | .warn => "WARN" | .info => "INFO" | .debug => "DEBUG" | .trace => "TRACE"

end Level

/-- The registers of a DMA channel that are bound by a host: the two directions of its data. -/
inductive Direction | intoRam | outOfRam deriving DecidableEq

inductive Notice
  -- the flow of instructions
  | interrupt (pc ip : UInt32)
  | executing (pc : UInt32) (i : Instruction)
  | malformed (word pc : UInt32)
  | badFetch (pc : UInt32)
  | executionBreakpoint (pc : UInt32)
  | exception (name : String) (epc : UInt32) (delaySlot : Bool) (vector : UInt32)
  | loadScheduled (reg : Reg) (value : UInt32)
  | loadLanded (reg : UInt64) (value : UInt32)
  | branching (target : UInt32)
  | entering (target returnAddr sp : UInt32)
  | effectiveAddress (base offset : UInt32)
  | brk (code pc : UInt32)
  | syscall (function : UInt32)
  | muldivStall (op : MulDivOp) (cycles : UInt32)
  -- memory accesses
  | unmapped (access : Access) (addr : UInt32)
  | busError (access : Access) (addr : UInt32)
  | misaligned (access : Access) (vaddr : UInt32)
  | privileged (access : Access) (segment : Segment) (vaddr : UInt32)
  | dataBreakpoint (access : Access) (vaddr : UInt32)
  | kseg2Load (addr : UInt32)
  | kseg2Store (addr : UInt32)
  | dataCacheHit (addr : UInt32)
  | isolatedStoreDropped (addr : UInt32)
  -- coprocessors
  | gteStall (cycles : UInt64)
  | unknownGteCommand (code : UInt32)
  | copUnusable (cop : Cop)
  | tlbOperation (funct : Fin 64) (pc : UInt32)
  | returnFromException
  | unknownCop0Command (funct : Fin 64) (pc : UInt32)
  | noCop0Register (index : Nat)
  | noCop0Control (code : UInt32)
  | unknownCopOperation (cop : Nat) (rs : Reg) (pc : UInt32)
  | copLoadIgnored (cop : Cop)
  | copStoreIgnored (cop : Cop)
  | readOnlyCop0Register (index : Nat)
  | unknownCop0Register (index : Nat) (value : UInt32)
  -- caches
  | cacheMode (old new : UInt32)
  | instructionHit (a : ICache.Address)
  | instructionMiss (a : ICache.Address)
  | lineInvalidated (a : ICache.Address)
  -- the bus and its registers
  | romWrite (addr value : UInt32)
  | ioRead (offset value : UInt32)
  | ioWrite (offset value : UInt32)
  | noMemoryControlRegister (index : Nat)
  | memoryControl (name : String) (value : UInt32)
  | raising (sources : UInt32)
  | interruptLine (level : Bool)
  | undocumentedSources (mask : UInt32)
  | noInterruptRegister (index : Nat)
  -- serial ports
  | bitClockStopped
  | transmitOverwritten
  | serialReset
  | listenerBound (port : Nat)
  | noPort (port : Nat)
  | received (value : UInt32)
  | readOnlySerial (offset : UInt32)
  -- direct memory access
  | peerBound (channel : Nat) (direction : Direction)
  | noChannel (channel : Nat)
  | unknownDmaRead (offset : UInt32)
  | unusedDmaRead (channel : Nat) (offset : UInt32)
  | unknownDmaWrite (offset : UInt32)
  | unusedDmaWrite (channel : Nat) (offset : UInt32)
  | reservedSync (channel : Nat)
  | backwardStep (channel : Nat)
  | listIntoRam (channel : Nat)
  | endlessList (channel : Nat)
  | noWriter (channel : Nat) (words : UInt32)
  | noReader (channel : Nat) (words : UInt32)
  | transferComplete (channel : Nat)
  -- the host
  | romLoaded (size : Nat)
  | reset

namespace Notice
open Numeral

def level : Notice → Level
  | .malformed .. | .unknownCop0Command .. | .noCop0Register .. | .noCop0Control ..
  | .unknownCopOperation .. | .copLoadIgnored .. | .copStoreIgnored .. | .unknownCop0Register ..
  | .romWrite .. | .noMemoryControlRegister .. | .undocumentedSources .. | .noInterruptRegister ..
  | .listenerBound .. | .noPort .. | .peerBound .. | .noChannel .. | .reservedSync ..
  | .listIntoRam .. | .endlessList .. => .warn
  | .romLoaded .. | .reset => .info
  | .executing .. | .loadScheduled .. | .loadLanded .. | .branching .. | .effectiveAddress ..
  | .muldivStall .. | .dataCacheHit .. | .isolatedStoreDropped .. | .gteStall ..
  | .unknownGteCommand .. | .returnFromException | .instructionHit .. | .instructionMiss ..
  | .lineInvalidated .. | .raising .. | .interruptLine .. | .received .. => .trace
  | _ => .debug

def message : Notice → String
  | .interrupt pc ip => "Interrupt (pc=" ++ address pc ++ ", ip=" ++ hex ip.toNat 2 ++ ")"
  | .executing pc i => digits pc.toNat 8 ++ ": " ++ i.assembly.text
  | .malformed word pc =>
    "Executing malformed opcode " ++ address word ++ " at " ++ address pc ++ " as a NOP"
  | .badFetch pc => "Bad fetch address " ++ address pc
  | .executionBreakpoint pc => "Execution breakpoint hit at " ++ address pc
  | .exception name epc delaySlot vector =>
    "Exception `" ++ name ++ "` (epc=" ++ address epc ++ ", bd=" ++ toString delaySlot
      ++ ", vector=" ++ address vector ++ ")"
  | .loadScheduled reg value =>
    "r" ++ toString reg.val ++ " <- " ++ address value ++ " (scheduled)"
  | .loadLanded reg value => "r" ++ toString reg.toNat ++ " <- " ++ address value ++ " (delayed)"
  | .branching target => "Branching to " ++ address target
  | .entering target returnAddr sp =>
    "Entering function `sub_" ++ upperDigits target.toNat 8 ++ "` (ra=" ++ address returnAddr
      ++ ", sp=" ++ address sp ++ ")"
  | .effectiveAddress base offset =>
    "Calc. virtual address (base=" ++ address base ++ ", offset=" ++ address offset ++ ")"
  | .brk code pc =>
    match Kernel.breakName? code with
    | some name => "break: " ++ name
    | none => "break " ++ short code ++ " at " ++ address pc
  | .syscall function => "syscall: " ++ Kernel.syscallName function
  | .muldivStall op cycles =>
    op.name ++ " interlock: stalling " ++ toString cycles.toNat ++ " cycles"
  | .unmapped access addr => access.name ++ " from unmapped address " ++ address addr
  | .busError access addr => "Bus error during " ++ access.name ++ " (addr=" ++ address addr ++ ")"
  | .misaligned access vaddr => "Misaligned " ++ access.name ++ " at " ++ address vaddr
  | .privileged access segment vaddr =>
    access.name ++ " from " ++ segment.name ++ " in user mode (vaddr=" ++ address vaddr ++ ")"
  | .dataBreakpoint access vaddr =>
    "Data breakpoint hit (" ++ access.name ++ " at " ++ address vaddr ++ ")"
  | .kseg2Load addr => "Load from kseg2 (addr=" ++ address addr ++ ")"
  | .kseg2Store addr => "Store to kseg2 (addr=" ++ address addr ++ ")"
  | .dataCacheHit addr => "D-cache hit (addr=" ++ address addr ++ ")"
  | .isolatedStoreDropped addr => "Dropping isolated store (addr=" ++ address addr ++ ")"
  | .gteStall cycles => "GTE busy: stalling " ++ toString cycles.toNat ++ " cycles"
  | .unknownGteCommand code => "Unknown GTE command " ++ hex code.toNat 2
  | .copUnusable cop => "COP" ++ toString cop.val ++ " is unusable"
  | .tlbOperation funct pc =>
    "Ignoring TLB operation (funct=" ++ hex funct 2 ++ ") at " ++ address pc ++ "; there is no TLB"
  | .returnFromException => "rfe"
  | .unknownCop0Command funct pc =>
    "Ignoring unknown COP0 command (funct=" ++ hex funct 2 ++ ") at " ++ address pc
  | .noCop0Register index => "mfc0: COP0 register #" ++ toString index ++ " does not exist"
  | .noCop0Control code => "COP0 has no control registers (instr=" ++ address code ++ ")"
  | .unknownCopOperation cop rs pc =>
    "Ignoring unknown COP" ++ toString cop ++ " operation (rs=" ++ hex rs 2 ++ ") at " ++ address pc
  | .copLoadIgnored cop =>
    "lwc" ++ toString cop.val ++ ": COP" ++ toString cop.val ++ " has no data registers; ignoring"
  | .copStoreIgnored cop =>
    "swc" ++ toString cop.val ++ ": COP" ++ toString cop.val ++ " has no data registers; ignoring"
  | .readOnlyCop0Register index =>
    "Ignoring write to read-only COP0 register #" ++ toString index
  | .unknownCop0Register index value =>
    "Ignoring write to COP0 register #" ++ toString index ++ " (value=" ++ address value ++ ")"
  | .cacheMode old new =>
    "Cache mode changed (" ++ short old ++ " -> " ++ short new ++ "); invalidating"
  | .instructionHit a => "I-cache hit (addr=" ++ a.text ++ ")"
  | .instructionMiss a => "I-cache miss (addr=" ++ a.text ++ ")"
  | .lineInvalidated a => "Invalidating I-cache line (addr=" ++ a.text ++ ")"
  | .romWrite addr value =>
    "Ignoring write to BIOS ROM (addr=" ++ address addr ++ ", value=" ++ short value ++ ")"
  | .ioRead offset value => "io[" ++ hex offset.toNat 4 ++ "] -> " ++ short value
  | .ioWrite offset value => "io[" ++ hex offset.toNat 4 ++ "] <- " ++ short value
  | .noMemoryControlRegister index =>
    "Ignoring write to memory control register #" ++ toString index
  | .memoryControl name value => "memctl." ++ name ++ " = " ++ address value
  | .raising sources => "Raising interrupt sources " ++ hex sources.toNat 3
  | .interruptLine level => "Interrupt line " ++ if level then "asserted" else "released"
  | .undocumentedSources mask =>
    "Enabling undocumented interrupt sources (mask=" ++ address mask ++ ")"
  | .noInterruptRegister index => "Ignoring write to interrupt register #" ++ toString index
  | .bitClockStopped => "SIO bit clock is stopped; transmission deferred"
  | .transmitOverwritten => "SIO transmit buffer overwritten before it was sent"
  | .serialReset => "SIO reset"
  | .listenerBound port => "SIO port " ++ toString port ++ " already has a handler"
  | .noPort port => "No such SIO port: " ++ toString port
  | .received value => "SIO RX -> " ++ hex value.toNat 2
  | .readOnlySerial offset => "Ignoring write to read-only SIO offset " ++ short offset
  | .peerBound channel .intoRam =>
    "DMA channel " ++ toString channel ++ " already has a read handler"
  | .peerBound channel .outOfRam =>
    "DMA channel " ++ toString channel ++ " already has a write handler"
  | .noChannel channel => "No such DMA channel: " ++ toString channel
  | .unknownDmaRead offset => "Read from unknown DMA register " ++ short offset
  | .unusedDmaRead channel offset =>
    "Read from DMA" ++ toString channel ++ " offset " ++ short offset
  | .unknownDmaWrite offset => "Ignoring write to unknown DMA register " ++ short offset
  | .unusedDmaWrite channel offset =>
    "Ignoring write to DMA" ++ toString channel ++ " offset " ++ short offset
  | .reservedSync channel => "DMA" ++ toString channel ++ " armed with reserved sync mode"
  | .backwardStep channel =>
    "DMA" ++ toString channel ++ ": backward step is not supported; stepping forwards"
  | .listIntoRam channel => "DMA" ++ toString channel ++ ": linked-list transfer into RAM"
  | .endlessList channel => "DMA" ++ toString channel ++ ": linked list did not terminate"
  | .noWriter channel words =>
    "DMA" ++ toString channel ++ ": no write handler; dropping " ++ toString words.toNat ++ " words"
  | .noReader channel words =>
    "DMA" ++ toString channel ++ ": no read handler; skipping " ++ toString words.toNat ++ " words"
  | .transferComplete channel => "DMA" ++ toString channel ++ " complete"
  | .romLoaded size => "Loaded " ++ hex size 1 ++ "-byte BIOS image"
  | .reset => "Reset"

end Notice
end R3000
