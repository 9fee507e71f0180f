import R3000.Machine
import R3000.Savestate.Parts

/-! # Savestates

A savestate holds what a machine consists of, but for the contents of the ROM, the geometry engine,
the device and everything bound by a host. Its stored form may be followed by other bytes, which are
passed over. -/
namespace R3000

structure Savestate where
  cpu : Cpu
  ram : MainRam
  memoryControl : MemoryControl
  int : Interrupt.Controller
  ports : Vector Serial.Port 2
  channels : Vector Dma.Channel 7
  dpcr : UInt32
  dicr : Dma.Dicr
  wordCycles : UInt32

/-- Why bytes are refused as a savestate. -/
inductive LoadError
  | decode (cause : DecodeError)
  | ramSize (size : Nat)
deriving DecidableEq

namespace LoadError

def message : LoadError → String
  | .decode _ => "failed to decode savestate"
  | .ramSize size => "savestate holds " ++ Numeral.hex size 1 ++ " bytes of RAM"

def cause? : LoadError → Option String
  | .decode cause => some cause.message
  | .ramSize _ => none

end LoadError

namespace Savestate

/-- The parts of a savestate as they are stored, with RAM of any size. -/
abbrev Image :=
  Cpu × ByteArray × MemoryControl × Interrupt.Controller × Vector Serial.Port 2
    × Vector Dma.Channel 7 × UInt32 × Dma.Dicr × UInt32

def image (s : Savestate) : Image :=
  (s.cpu, s.ram.bytes, s.memoryControl, s.int, s.ports, s.channels, s.dpcr, s.dicr, s.wordCycles)

def ofImage : Image → Except LoadError Savestate
  | (cpu, bytes, memoryControl, int, ports, channels, dpcr, dicr, wordCycles) =>
    match Bank.ofBytes? ramSize bytes with
    | some ram =>
      .ok { cpu, ram, memoryControl, int, ports, channels, dpcr, dicr, wordCycles }
    | none => .error (.ramSize bytes.size)

def toBytes (s : Savestate) : List UInt8 := Stored.encode s.image

/-- Reads a savestate from the front of the input. -/
def ofBytes (input : List UInt8) : Except LoadError Savestate :=
  match (Stored.decode : Decoder Image) input with
  | .ok (image, _) => ofImage image
  | .error cause => .error (.decode cause)

end Savestate

namespace Machine
variable {γ δ : Type}

def savestate (m : Machine γ δ) : Savestate where
  cpu := m.cpu
  ram := m.bus.ram
  memoryControl := m.bus.memoryControl
  int := m.bus.int
  ports := m.bus.serial.ports
  channels := m.bus.dma.channels
  dpcr := m.bus.dma.dpcr
  dicr := m.bus.dma.dicr
  wordCycles := m.bus.dma.wordCycles

/-- The machine in the state of a savestate. -/
def restored (m : Machine γ δ) (s : Savestate) : Machine γ δ :=
  { m with
    cpu := s.cpu
    bus := { m.bus with
      ram := s.ram
      memoryControl := s.memoryControl
      int := s.int
      serial := m.bus.serial.restore s.ports
      dma := m.bus.dma.restore s.channels s.dpcr s.dicr s.wordCycles } }

@[simp] theorem savestate_restored (m : Machine γ δ) (s : Savestate) :
    (m.restored s).savestate = s := rfl

/-- Takes on the state that bytes hold. Bytes that are refused change nothing. -/
def restore (input : List UInt8) : Run γ δ (Except LoadError Unit) := do
  match Savestate.ofBytes input with
  | .ok s =>
    modify (·.restored s)
    return .ok ()
  | .error e => return .error e

end Machine
end R3000
