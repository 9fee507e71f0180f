import R3000.Machine

/-! # What a host does to a machine

A host loads the ROM, binds peers to the serial ports and the DMA channels, drives their inputs, and
resets. None of it takes time on the processor's clock. -/
namespace R3000

/-- Why an image is refused as the contents of the ROM. -/
inductive RomError | tooLarge (size : Nat) deriving DecidableEq

def RomError.message : RomError → String
  | .tooLarge size =>
    "BIOS image is " ++ Numeral.hex size 1 ++ " bytes; the ROM holds only "
      ++ Numeral.hex romSize 1

namespace Machine
variable {γ δ : Type}

/-- Replaces the contents of the ROM. An image that does not fit changes nothing. -/
def loadRom (image : ByteArray) : Run γ δ (Except RomError Unit) := do
  match Rom.ofImage? image with
  | some rom =>
    modify fun m => { m with bus := { m.bus with rom } }
    note (.romLoaded image.size)
    return .ok ()
  | none => return .error (.tooLarge image.size)

/-- The machine as at power-on, but for its memories and everything bound to it. -/
def cold (m : Machine γ δ) : Machine γ δ :=
  { m with
    cpu := m.cpu.reset
    bus := { m.bus with
      memoryControl := .boot m.config.ramSize
      int := {}
      serial := m.bus.serial.reset
      dma := m.bus.dma.reset } }

def reset : Run γ δ Unit := do
  note .reset
  modify cold

/-- Binds the listener of a serial port. -/
def listen (port : Nat) (l : Serial.Listener δ) : Run γ δ Unit := onBus do
  let b ← get
  set { b with serial := ← b.serial.listen port l }

/-- Binds the reader of a DMA channel. -/
def bindReader (channel : Nat) (r : Dma.Reader δ) : Run γ δ Unit := onBus do
  let b ← get
  set { b with dma := ← b.dma.bindReader channel r }

/-- Binds the writer of a DMA channel. -/
def bindWriter (channel : Nat) (w : Dma.Writer δ) : Run γ δ Unit := onBus do
  let b ← get
  set { b with dma := ← b.dma.bindWriter channel w }

/-- Writes words of RAM, one after the other. -/
def poke (addr : UInt32) (words : List UInt32) : Run γ δ Unit :=
  match words with
  | [] => return ()
  | w :: ws => do
    modify fun m => { m with bus := { m.bus with ram := m.bus.ram.setWord addr w } }
    poke (addr + 4) ws

end Machine
end R3000
