import R3000.Cop0.Cause
import R3000.Cop0.Dcic
import R3000.Cop0.Status
import R3000.Report

/-! # The system control registers -/
namespace R3000

structure Cop0 where
  /-- The execution breakpoint. -/
  bpc : UInt32 := 0
  /-- The data-access breakpoint. -/
  bda : UInt32 := 0
  /-- The target of the taken branch that owns a faulting delay slot. -/
  tar : UInt32 := 0
  dcic : Dcic := {}
  badVaddr : UInt32 := 0
  /-- The address bits that the data-access breakpoint compares. -/
  bdam : UInt32 := 0
  /-- The address bits that the execution breakpoint compares. -/
  bpcm : UInt32 := 0
  status : Status := {}
  cause : Cause := {}
  epc : UInt32 := 0
  prid : UInt32 := 0
deriving DecidableEq

namespace Cop0

/-- The register with a number, where there is one. -/
def read? (c : Cop0) (index : Nat) : Option UInt32 :=
  match index with
  | 3 => some c.bpc
  | 5 => some c.bda
  | 6 => some c.tar
  | 7 => some c.dcic.word
  | 8 => some c.badVaddr
  | 9 => some c.bdam
  | 11 => some c.bpcm
  | 12 => some c.status.word
  | 13 => some c.cause.word
  | 14 => some c.epc
  | 15 => some c.prid
  | _ => none

/-- The numbers of the registers. -/
def indices : List Nat := [3, 5, 6, 7, 8, 9, 11, 12, 13, 14, 15]

/-- A write by software. It passes over registers that are read-only or do not exist, and changes
only the software interrupts of Cause. -/
def write (c : Cop0) (index : Nat) (value : UInt32) : Reported Cop0 :=
  match index with
  | 3 => pure { c with bpc := value }
  | 5 => pure { c with bda := value }
  | 6 => pure { c with tar := value }
  | 7 => pure { c with dcic := ⟨value⟩ }
  | 9 => pure { c with bdam := value }
  | 11 => pure { c with bpcm := value }
  | 12 => pure { c with status := ⟨value⟩ }
  | 13 => pure { c with cause := c.cause.write value }
  | 8 | 14 | 15 => do
    note (.readOnlyCop0Register index)
    return c
  | _ => do
    note (.unknownCop0Register index value)
    return c

end Cop0
end R3000
