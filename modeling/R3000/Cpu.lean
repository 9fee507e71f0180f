import R3000.Caches
import R3000.DelaySlots
import R3000.MulDiv.Unit

/-! # The processor: registers, caches, hazards and time -/
namespace R3000

structure Clock where
  cycles : UInt64 := 0
  /-- Instructions retired. -/
  retired : UInt64 := 0
  /-- The cycle at which the geometry engine is done with its command. -/
  gteReadyAt : UInt64 := 0
deriving DecidableEq

/-- The sum of a counter and an amount, and a fault where it overruns. -/
def count (n amount : UInt64) : Reported UInt64 := do
  require (n.toNat + amount.toNat < 0x10000000000000000) .counter
  return n + amount

structure Cpu where
  caches : Caches := {}
  slots : DelaySlots := {}
  regs : RegisterFile := {}
  muldiv : MulDivUnit := {}
  clock : Clock := {}
deriving DecidableEq

namespace Cpu

/-- Where execution starts. -/
def resetVector : UInt32 := 0xbfc00000

/-- The processor at power-on, of a given revision. -/
def powerOn (prid : UInt32) : Cpu where
  regs := { pc := resetVector, cop0 := { status := ({} : Status).setBev true, prid } }

def reset (c : Cpu) : Cpu := powerOn c.regs.cop0.prid

end Cpu
end R3000
