import R3000.Device
import R3000.Dma
import R3000.MemoryControl
import R3000.Serial

/-! # The bus: everything that the processor reaches by physical addresses -/
namespace R3000

structure Bus (δ : Type) where
  ram : MainRam
  rom : Rom
  memoryControl : MemoryControl
  int : Interrupt.Controller
  serial : Serial.Controller δ
  dma : Dma.Controller δ
  device : Device δ
  /-- The state of the world outside. -/
  outside : δ

/-- Operations on a bus. -/
abbrev Bus.Op (δ : Type) := StateT (Bus δ) Reported

namespace Bus
variable {δ : Type}

/-- Raises interrupt sources. -/
def raise (sources : UInt32) : Bus.Op δ Unit := do
  let b ← get
  set { b with int := ← b.int.raise sources }

/-- Presents input levels on a serial port. -/
def serialInput (port : Nat) (mask levels : UInt32) : Bus.Op δ Unit := do
  let b ← get
  let (serial, int, outside) ← b.serial.input port mask levels b.int b.outside
  set { b with serial, int, outside }

def serialRead (port : Nat) (offset : UInt32) (w : Width) : Bus.Op δ UInt32 := do
  let b ← get
  let (value, serial) ← b.serial.read port offset w
  set { b with serial }
  return value

def serialWrite (port : Nat) (offset value : UInt32) (w : Width) : Bus.Op δ Unit := do
  let b ← get
  let (serial, int, outside) ← b.serial.write port offset value w b.int b.outside
  set { b with serial, int, outside }

/-- Lets cycles pass on the serial ports. -/
def serialUpdate (cycles : UInt32) : Bus.Op δ Unit := do
  let b ← get
  let (serial, int, outside) ← b.serial.update cycles b.int b.outside
  set { b with serial, int, outside }

end Bus
end R3000
