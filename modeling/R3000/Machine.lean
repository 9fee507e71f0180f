import R3000.Bus.Access
import R3000.Cpu
import R3000.Gte

/-! # The machine: a processor on its bus, with a geometry engine

Instructions run in `Exec`: they change the machine and may end in an exception, and what they have
done by then stays done. Everything around them runs in `Run`. -/
namespace R3000

structure Config where
  /-- The revision that the processor shows. -/
  prid : UInt32 := 2
  ramSize : UInt32 := 0x0b88
  /-- The cycles that a DMA transfer takes for each word. -/
  dmaWordCycles : UInt32 := 1
deriving DecidableEq

structure Machine (γ δ : Type) where
  config : Config
  cpu : Cpu
  bus : Bus δ
  gte : Gte γ
  gteState : γ

abbrev Run (γ δ : Type) := StateT (Machine γ δ) Reported

abbrev Exec (γ δ : Type) := ExceptT Exception (Run γ δ)

/-- A computation that raises no exception. -/
def plain {γ δ α : Type} (x : Run γ δ α) : Exec γ δ α := ExceptT.lift x

namespace Machine
variable {γ δ α : Type}

/-- A machine at power-on, its memories zero and nothing bound to it. -/
def create (config : Config) (gte : Gte γ) (gteState : γ) (device : Device δ) (outside : δ) :
    Machine γ δ where
  config := config
  cpu := .powerOn config.prid
  bus :=
    { ram := .zero
      rom := .zero
      memoryControl := .boot config.ramSize
      int := {}
      serial := {}
      dma := { wordCycles := config.dmaWordCycles }
      device := device
      outside := outside }
  gte := gte
  gteState := gteState

/-- An operation on the bus. -/
def onBus (x : Bus.Op δ α) : Run γ δ α := fun m =>
  match m with
  | ⟨config, cpu, bus, gte, gteState⟩ =>
    let r := x bus
    { value := (r.value.1, ⟨config, cpu, r.value.2, gte, gteState⟩), record := r.record }

def modifyCpu (f : Cpu → Cpu) : Run γ δ Unit := modify fun m => { m with cpu := f m.cpu }

def setClock (clock : Clock) : Run γ δ Unit := modifyCpu fun c => { c with clock }

/-- Lets cycles pass on the processor's clock. -/
def spend (cycles : UInt64) : Run γ δ Unit := do
  let clock := (← get).cpu.clock
  setClock { clock with cycles := ← count clock.cycles cycles }

/-- Waits until the geometry engine is done with its command. -/
def awaitGte : Run γ δ Unit := do
  let clock := (← get).cpu.clock
  if clock.cycles < clock.gteReadyAt then
    note (.gteStall (clock.gteReadyAt - clock.cycles))
    setClock { clock with cycles := clock.gteReadyAt }

def modifyRegs (f : RegisterFile → RegisterFile) : Exec γ δ Unit :=
  plain (modifyCpu fun c => { c with regs := f c.regs })

def modifyCop0 (f : Cop0 → Cop0) : Exec γ δ Unit := modifyRegs fun r => { r with cop0 := f r.cop0 }

def modifySlots (f : DelaySlots → DelaySlots) : Exec γ δ Unit :=
  plain (modifyCpu fun c => { c with slots := f c.slots })

def modifyCaches (f : Caches → Caches) : Exec γ δ Unit :=
  plain (modifyCpu fun c => { c with caches := f c.caches })

end Machine
end R3000
