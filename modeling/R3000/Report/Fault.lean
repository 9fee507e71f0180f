/-! # Faults: what a machine in good order never does

Every operation of the model has a result. Where an array would be indexed past its end, a number
divided by zero, a word shifted by its own width or a counter overrun, the operation goes on with a
fixed result and leaves a fault in its record. -/
namespace R3000

inductive Fault
  /-- A load lands in a register that does not exist. -/
  | register (reg : UInt64)
  /-- An access runs past the end of a memory bank. -/
  | bank (offset : Nat)
  /-- A DMA register offset names no channel. -/
  | channel (offset : UInt32)
  /-- Numbers are divided that have no quotient. -/
  | division
  /-- The count of a bit clock's expiries overruns. -/
  | expiries
  /-- A bit is shifted out of the receive register. -/
  | receiveShift
  /-- The count of received bits overruns. -/
  | receiveCount
  /-- A 64-bit counter overruns. -/
  | counter
deriving DecidableEq

/-- A bit clock without a period expires, so that time is divided by none. -/
@[match_pattern]
abbrev Fault.period : Fault := .division

end R3000
