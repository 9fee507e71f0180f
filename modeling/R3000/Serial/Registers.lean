import R3000.Word

/-! # The mode and control registers of a serial port -/
namespace R3000.Serial

structure Mode where
  word : UInt16 := 0
deriving DecidableEq

namespace Mode

def bit (m : Mode) (i : Nat) : Bool := Word.bit m.word.toUInt32 i

def prescaler (m : Mode) : UInt32 := Word.field m.word.toUInt32 0 2

def charLen (m : Mode) : UInt32 := Word.field m.word.toUInt32 2 2

def parityEnable (m : Mode) : Bool := m.bit 4

def parityOdd (m : Mode) : Bool := m.bit 5

def stopBits (m : Mode) : UInt32 := Word.field m.word.toUInt32 6 2

def clockPolarity (m : Mode) : Bool := m.bit 8

/-- Processor cycles per unit of the baud register; zero where the clock is stopped. -/
def multiplier (m : Mode) : UInt32 :=
  match m.prescaler.toNat with
  | 1 => 1
  | 2 => 16
  | 3 => 64
  | _ => 0

/-- Five to eight data bits. -/
def bitsPerChar (m : Mode) : UInt8 := m.charLen.toUInt8 + 5

end Mode

structure Control where
  word : UInt16 := 0
deriving DecidableEq

namespace Control

def bit (c : Control) (i : Nat) : Bool := Word.bit c.word.toUInt32 i

def txEnable (c : Control) : Bool := c.bit 0

def dtr (c : Control) : Bool := c.bit 1

def rxEnable (c : Control) : Bool := c.bit 2

def txOutputLevel (c : Control) : Bool := c.bit 3

/-- Acknowledges the interrupt and the errors; never kept. -/
def iack (c : Control) : Bool := c.bit 4

def rts (c : Control) : Bool := c.bit 5

/-- Returns the port to its idle state; never kept. -/
def reset (c : Control) : Bool := c.bit 6

def rxIntMode (c : Control) : UInt32 := Word.field c.word.toUInt32 8 2

def txInterrupt (c : Control) : Bool := c.bit 10

def rxInterrupt (c : Control) : Bool := c.bit 11

def dsrInterrupt (c : Control) : Bool := c.bit 12

def portSelect (c : Control) : Bool := c.bit 13

def clearIack (c : Control) : Control := ⟨c.word &&& 0xffef⟩

end Control
end R3000.Serial
