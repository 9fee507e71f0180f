import R3000.Word

/-! # The wires and status flags of a serial port -/
namespace R3000.Serial

/-- The levels that a port drives. -/
structure Lines where
  bits : UInt32 := 0
deriving DecidableEq

/-- The levels that a port samples. -/
structure Inputs where
  bits : UInt32 := 0
deriving DecidableEq

structure Status where
  bits : UInt32 := 0
deriving DecidableEq

namespace Lines

def data : Nat := 0
def dtr : Nat := 1
def rts : Nat := 2
/-- Toggles with every bit that is shifted out. -/
def clock : Nat := 3

def has (l : Lines) (i : Nat) : Bool := Word.bit l.bits i

def set (l : Lines) (i : Nat) (b : Bool) : Lines := ⟨Word.setBit l.bits i b⟩

def toggle (l : Lines) (i : Nat) : Lines := ⟨l.bits ^^^ Word.single i⟩

end Lines

namespace Inputs

def data : Nat := 0
def dsr : Nat := 1
def cts : Nat := 2

def has (i : Inputs) (n : Nat) : Bool := Word.bit i.bits n

/-- The bits that name a wire. -/
def defined : UInt32 := 7

/-- Takes the wires in `mask` from `levels`; of the others, those that exist keep their level. -/
def merge (i : Inputs) (mask levels : UInt32) : Inputs :=
  ⟨(i.bits &&& (~~~mask &&& defined)) ||| (levels &&& mask)⟩

end Inputs

namespace Status

/-- The transmit buffer may be written. -/
def txReady : Nat := 0
/-- A received character waits to be read. -/
def rxReady : Nat := 1
/-- Nothing is queued or being shifted out. -/
def txEmpty : Nat := 2
def parityError : Nat := 3
/-- A character arrived before the one before it was read. -/
def overrun : Nat := 4
def framingError : Nat := 5
def dsr : Nat := 7
def cts : Nat := 8
def irq : Nat := 9

def has (s : Status) (i : Nat) : Bool := Word.bit s.bits i

def set (s : Status) (i : Nat) (b : Bool) : Status := ⟨Word.setBit s.bits i b⟩

/-- An idle port is ready to transmit and has nothing to send. -/
def idle : Status := ⟨Word.single txReady ||| Word.single txEmpty⟩

end Status
end R3000.Serial
