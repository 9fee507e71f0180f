import R3000.Word

/-! # The cause register -/
namespace R3000

structure Cause where
  word : UInt32 := 0
deriving DecidableEq

namespace Cause

def excCode (c : Cause) : UInt32 := Word.field c.word 2 5

/-- Pending interrupts; bits 0 and 1 are raised by software, bit 2 is the interrupt line. -/
def ip (c : Cause) : UInt32 := Word.field c.word 8 8

def ip2 (c : Cause) : Bool := Word.bit c.word 10

/-- The coprocessor of a coprocessor-unusable exception. -/
def ce (c : Cause) : UInt32 := Word.field c.word 28 2

/-- The exception came from the delay slot of a taken branch. -/
def bt (c : Cause) : Bool := Word.bit c.word 30

/-- The exception came from a delay slot. -/
def bd (c : Cause) : Bool := Word.bit c.word 31

def setExcCode (c : Cause) (code : UInt32) : Cause := ⟨Word.setField c.word 2 5 code⟩

def setIp2 (c : Cause) (b : Bool) : Cause := ⟨Word.setBit c.word 10 b⟩

def setCe (c : Cause) (cop : UInt32) : Cause := ⟨Word.setField c.word 28 2 cop⟩

def setBt (c : Cause) (b : Bool) : Cause := ⟨Word.setBit c.word 30 b⟩

def setBd (c : Cause) (b : Bool) : Cause := ⟨Word.setBit c.word 31 b⟩

/-- The bits that software may write: its own two interrupts. -/
def writable : UInt32 := 0x300

/-- A write by software. -/
def write (c : Cause) (value : UInt32) : Cause :=
  ⟨(c.word &&& ~~~writable) ||| (value &&& writable)⟩

end Cause
end R3000
