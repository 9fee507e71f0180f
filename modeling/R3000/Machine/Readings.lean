import R3000.Machine
import R3000.RegisterFile.Named

/-! # Everything that a machine's registers show, by name -/
namespace R3000

inductive Reading
  | number (n : Nat)
  | level (b : Bool)
  /-- A load on its way to a register. -/
  | load (reg : UInt64) (value : UInt32)
  | notTaken
  | muldiv (p : MulDivPending)
  /-- What is waited for is not under way. -/
  | idle
deriving DecidableEq

namespace Reading

def word (w : UInt32) : Reading := .number w.toNat

def optional : Option UInt32 → Reading
  | some w => .word w
  | none => .idle

def ofLoad : LoadDelay → Reading
  | .none => .idle
  | .pending reg value => .load reg value

def ofBranch : BranchDelay → Reading
  | .none => .idle
  | .notTaken => .notTaken
  | .pending target => .word target

end Reading

/-- Readings by name, in an order of their own. -/
abbrev Readings := List (String × Reading)

namespace Readings

/-- The readings that are not what they were before; both lists have the same names. -/
def changes (before after : Readings) : Readings :=
  ((before.zip after).filter fun (b, a) => b.2 ≠ a.2).map Prod.snd

end Readings

def Cpu.readings (c : Cpu) : Readings :=
  RegisterFile.named.map (fun r => (r.name, .word (r.read c.regs)))
    ++ [("biu", .word c.caches.biu.word), ("load", .ofLoad c.slots.load),
      ("next_load", .ofLoad c.slots.nextLoad), ("branch", .ofBranch c.slots.branch),
      ("slot", .level c.slots.inSlot), ("taken", .level c.slots.taken),
      ("muldiv", (c.muldiv.pending.map .muldiv).getD .idle), ("cycles", .number c.clock.cycles.toNat),
      ("retired", .number c.clock.retired.toNat),
      ("gte_ready_at", .number c.clock.gteReadyAt.toNat)]

def Interrupt.Controller.readings (c : Interrupt.Controller) : Readings :=
  [("int.pending", .word c.pending), ("int.enabled", .word c.enabled), ("int.line", .level c.line)]

def Serial.Port.readings (p : Serial.Port) : Readings :=
  [("status", .word p.status.bits), ("mode", .number p.mode.word.toNat),
    ("control", .number p.control.word.toNat), ("misc", .number p.misc.toNat),
    ("baud", .number p.baud.toNat), ("tx_data", .number p.txData.toNat),
    ("tx_shift", .number p.txShift.toNat), ("tx_bits", .number p.txBits.toNat),
    ("rx_data", .number p.rxData.toNat), ("rx_shift", .number p.rxShift.toNat),
    ("rx_bits", .number p.rxBits.toNat), ("inputs", .word p.inputs.bits),
    ("outputs", .word p.outputs.bits), ("period", .word p.timer.period),
    ("remaining", .optional p.timer.remaining)]

def Dma.Channel.readings (c : Dma.Channel) : Readings :=
  [("madr", .word c.madr), ("bcr", .word c.bcr), ("chcr", .word c.chcr.word),
    ("countdown", .optional c.countdown)]

def MemoryControl.readings (m : MemoryControl) : Readings :=
  m.banks.toList.mapIdx (fun i w => ("memctl" ++ toString i, .word w))
    ++ [("ram_size", .word m.ramSize)]

/-- Puts the readings of several alike parts under the name of their kind and their number. -/
def Readings.numbered (kind : String) (parts : List Readings) : Readings :=
  (parts.mapIdx fun i p => p.map fun r => (kind ++ toString i ++ "." ++ r.1, r.2)).flatten

def Bus.readings {δ : Type} (b : Bus δ) : Readings :=
  b.int.readings
    ++ .numbered "sio" (b.serial.ports.toList.map Serial.Port.readings)
    ++ .numbered "dma" (b.dma.channels.toList.map Dma.Channel.readings)
    ++ [("dpcr", .word b.dma.dpcr), ("dicr", .word b.dma.dicr.word),
      ("word_cycles", .word b.dma.wordCycles)]
    ++ b.memoryControl.readings

namespace Machine
variable {γ δ : Type}

def readings (m : Machine γ δ) : Readings := m.cpu.readings ++ m.bus.readings

/-- Writes a register of this name: one of the register file, a count of the clock, or the control
word of the caches. Gives whether there is one. -/
def writeNamed (name : String) (value : UInt64) : Run γ δ Bool := do
  let cpu := (← get).cpu
  match name with
  | "cycles" => setClock { cpu.clock with cycles := value }
  | "retired" => setClock { cpu.clock with retired := value }
  | "gte_ready_at" => setClock { cpu.clock with gteReadyAt := value }
  | "biu" =>
    let caches ← cpu.caches.setBiu value.toUInt32
    modifyCpu fun c => { c with caches }
  | _ =>
    match cpu.regs.writeNamed? name value.toUInt32 with
    | some regs => modifyCpu fun c => { c with regs }
    | none => return false
  return true

end Machine
end R3000
