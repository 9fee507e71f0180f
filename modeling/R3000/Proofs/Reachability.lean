import R3000.Machine.Step
import R3000.Proofs.ClockRoom
import R3000.Proofs.ExactArithmetic
import R3000.Proofs.StoredRoundTrip

/-! # Machines that a host can bring about

A host creates a machine, loads, attaches and binds what belongs to it, drives its inputs, restores
savestates taken of any such machine, and lets it step. A machine brought about in this way is in good
order, and its next step does nothing that it must not. -/
namespace R3000.Machine

inductive Reachable : {γ δ : Type} → Machine γ δ → Prop
  | create {γ δ : Type} (config : Config) (gte : Gte γ) (gteState : γ) (device : Device δ)
      (outside : δ) : Reachable (create config gte gteState device outside)
  | attachGte {γ γ' δ : Type} {m : Machine γ δ} (gte : Gte γ') (gteState : γ') :
      Reachable m → Reachable ⟨m.config, m.cpu, m.bus, gte, gteState⟩
  | attachDevice {γ δ : Type} {m : Machine γ δ} (device : Device δ) (outside : δ) :
      Reachable m → Reachable { m with bus := { m.bus with device, outside } }
  | loadRom {γ δ : Type} {m : Machine γ δ} (image : ByteArray) :
      Reachable m → Reachable (loadRom image m).value.2
  | poke {γ δ : Type} {m : Machine γ δ} (addr : UInt32) (words : List UInt32) :
      Reachable m → Reachable (poke addr words m).value.2
  | raise {γ δ : Type} {m : Machine γ δ} (sources : UInt32) :
      Reachable m → Reachable (onBus (Bus.raise sources) m).value.2
  | serialInput {γ δ : Type} {m : Machine γ δ} (port : Nat) (mask levels : UInt32) :
      Reachable m → Reachable (onBus (Bus.serialInput port mask levels) m).value.2
  | listen {γ δ : Type} {m : Machine γ δ} (port : Nat) (l : Serial.Listener δ) :
      Reachable m → Reachable (listen port l m).value.2
  | bindReader {γ δ : Type} {m : Machine γ δ} (channel : Nat) (r : Dma.Reader δ) :
      Reachable m → Reachable (bindReader channel r m).value.2
  | bindWriter {γ δ : Type} {m : Machine γ δ} (channel : Nat) (w : Dma.Writer δ) :
      Reachable m → Reachable (bindWriter channel w m).value.2
  | reset {γ δ : Type} {m : Machine γ δ} : Reachable m → Reachable (reset m).value.2
  | restore {γ δ γ' δ' : Type} {m : Machine γ δ} {c : Machine γ' δ'} :
      Reachable m → Reachable c → Reachable (m.restore c.savestate.toBytes).value.2
  | next {γ δ : Type} {m : Machine γ δ} : Reachable m → Reachable (next m).value.2

variable {γ δ : Type} {m : Machine γ δ}

theorem wellFormed_poke (hm : m.WellFormed) (addr : UInt32) (words : List UInt32) :
    (poke addr words m).value.2.WellFormed := by
  induction words generalizing m addr with
  | nil => exact hm
  | cons w words ih =>
    exact ih (m := { m with bus := { m.bus with ram := m.bus.ram.setWord addr w } })
      ⟨hm.slots, hm.bus.serial, hm.bus.dicr⟩ _

theorem wellFormed_bindReader {b : Bus δ} (hb : b.WellFormed) (channel : Nat) (r : Dma.Reader δ) :
    Bus.WellFormed { b with dma := (b.dma.bindReader channel r).value } := by
  refine ⟨hb.serial, ?_⟩
  simp only [Dma.Controller.bindReader]
  split
  · split <;> exact hb.dicr
  · exact hb.dicr

theorem wellFormed_bindWriter {b : Bus δ} (hb : b.WellFormed) (channel : Nat) (w : Dma.Writer δ) :
    Bus.WellFormed { b with dma := (b.dma.bindWriter channel w).value } := by
  refine ⟨hb.serial, ?_⟩
  simp only [Dma.Controller.bindWriter]
  split
  · split <;> exact hb.dicr
  · exact hb.dicr

theorem wellFormed_onBus {α : Type} {x : Bus.Op δ α} (hm : m.WellFormed)
    (hx : Moves (Bus.safe δ) x m.bus) : (onBus x m).value.2.WellFormed :=
  ⟨hm.slots, (hx hm.bus).1⟩

theorem wellFormed_restored {γ' δ' : Type} {c : Machine γ' δ'} (hc : c.WellFormed) :
    (m.restored c.savestate).WellFormed :=
  ⟨hc.slots, fun i => hc.bus.serial i, hc.bus.dicr⟩

namespace Reachable

theorem wellFormed (h : Reachable m) : m.WellFormed := by
  induction h with
  | create => exact ⟨⟨nofun, nofun⟩, Serial.Controller.wellFormed_idle rfl, Dma.Dicr.settled_zero⟩
  | attachGte gte gteState _ ih => exact ⟨ih.slots, ih.bus⟩
  | attachDevice device outside _ ih => exact ⟨ih.slots, ih.bus.serial, ih.bus.dicr⟩
  | loadRom image _ ih =>
    simp only [Machine.loadRom]
    cases Rom.ofImage? image with
    | some rom => exact ⟨ih.slots, ih.bus.serial, ih.bus.dicr⟩
    | none => exact ih
  | poke addr words _ ih => exact wellFormed_poke ih addr words
  | raise sources _ ih => exact wellFormed_onBus ih (Bus.raise_safe sources)
  | serialInput port mask levels _ ih => exact wellFormed_onBus ih (Bus.serialInput_safe port mask levels)
  | listen port l _ ih =>
    exact ⟨ih.slots, (Serial.Controller.listen_safe ih.bus.serial port l).wellFormed, ih.bus.dicr⟩
  | bindReader channel r _ ih => exact ⟨ih.slots, wellFormed_bindReader ih.bus channel r⟩
  | bindWriter channel w _ ih => exact ⟨ih.slots, wellFormed_bindWriter ih.bus channel w⟩
  | reset => exact ⟨⟨nofun, nofun⟩, Serial.Controller.wellFormed_idle rfl, Dma.Dicr.settled_zero⟩
  | @restore _ _ _ _ m c _ _ _ ih =>
    rw [m.restore_saved c.savestate]
    exact wellFormed_restored ih
  | next _ ih => exact (next_safe ih).1

theorem runFrom (fuel : Nat) (budget elapsed : UInt64) (seen : List Record) (h : Reachable m) :
    Reachable (runFrom fuel budget elapsed m seen).value.2 := by
  induction fuel generalizing m elapsed seen with
  | zero => exact h
  | succ fuel ih =>
    simp only [Machine.runFrom]
    split
    · exact ih _ _ h.next
    · exact h

/-- A run is as good as its steps. -/
theorem run (budget : UInt64) (h : Reachable m) : Reachable (run budget m).value.2 :=
  h.runFrom _ _ _ _

end Reachable

/-- A machine at power-on with nothing attached to it. -/
def bare : Machine Gte.Registers Unit := create {} Gte.inert {} (Device.absent Unit) ()

theorem reachable_bare : Reachable bare := .create _ _ _ _ _

def littleEndian (w : UInt32) : List UInt8 :=
  [w.toUInt8, (w >>> 8).toUInt8, (w >>> 16).toUInt8, (w >>> 24).toUInt8]

/-- The ROM that a short image makes. -/
def startingRom (bytes : List UInt8) (h : bytes.length ≤ romSize) : Rom where
  bytes := ⟨⟨bytes ++ List.replicate (romSize - bytes.length) 0⟩⟩
  size_eq := by
    show (bytes ++ _).length = _
    rw [List.length_append, List.length_replicate, Nat.add_sub_cancel' h]

theorem ofImage?_starting {bytes : List UInt8} (h : bytes.length ≤ romSize) :
    Rom.ofImage? ⟨⟨bytes⟩⟩ = some (startingRom bytes h) := by
  have hpad : (⟨⟨bytes⟩ ++ Array.replicate (romSize - bytes.length) 0⟩ : ByteArray) =
      (startingRom bytes h).bytes := by
    show ByteArray.mk _ = ByteArray.mk _
    rw [← List.toArray_replicate, List.append_toArray]
  show Bank.ofBytes? romSize ⟨⟨bytes⟩ ++ Array.replicate (romSize - bytes.length) 0⟩ = _
  rw [hpad]
  exact dif_pos (startingRom bytes h).size_eq

/-- The bare machine with a program in its ROM. -/
def booting (words : List UInt32) (h : (words.flatMap littleEndian).length ≤ romSize) :
    Machine Gte.Registers Unit :=
  { bare with bus := { bare.bus with rom := startingRom (words.flatMap littleEndian) h } }

theorem reachable_booting (words : List UInt32)
    (h : (words.flatMap littleEndian).length ≤ romSize) : Reachable (booting words h) := by
  have hload := reachable_bare.loadRom ⟨⟨words.flatMap littleEndian⟩⟩
  simp only [loadRom] at hload
  rw [ofImage?_starting h] at hload
  exact hload

/-- The machine some steps later, as long as they fit in this budget. -/
def steps (m : Machine γ δ) (n : Nat) : Machine γ δ := (runFrom n 0x100000000 0 m []).value.2

theorem Reachable.steps (n : Nat) (h : Reachable m) : Reachable (m.steps n) := h.runFrom _ _ _ _

/-- The bare machine at work. A port sends a character and a channel is in flight, a word is on its way into a
register, and the next instruction waits for a division by zero. -/
def busy : Machine Gte.Registers Unit :=
  (listen 0 (fun _ outside => outside) (booting [0x3c08bf80, 0x3c090084, 0xad0910f4, 0x340a0800, 0xad0a10f0,
    0x340a0040, 0xad0a10a4, 0x3c0a1100, 0x354a0001, 0x3c090005, 0x35290002, 0xad09104c, 0xad091048,
    0xad091040, 0xad0a10a8, 0x0120001a, 0x8d0b104c, 0x00006012, 0] (by decide))).value.2.steps 17

theorem reachable_busy : Reachable busy := .steps 17 (.listen 0 _ (reachable_booting _ _))

/-- What a step does with its counters, its devices' time and its records where the clock has room. -/
structure Orderly (m : Machine γ δ) : Prop where
  faults : (next m).record.faults = []
  elapsed : (next m).value.1.toNat =
    (next m).value.2.cpu.clock.cycles.toNat - m.cpu.clock.cycles.toNat
  forward : m.cpu.clock.cycles.toNat ≤ (next m).value.2.cpu.clock.cycles.toNat

theorem orderly_of_room (hm : m.WellFormed) (hr : m.Room 0x200000000 1) : Orderly m := by
  have hc := hr.cycles
  have s := next_takes (m := m) hm ⟨by omega, hr.retired⟩
  refine ⟨s.faults, ?_, s.forward⟩
  exact UInt64.toNat_sub_of_le _ _ (UInt64.le_iff_toNat_le.mpr s.forward)

/-- From a machine that a host can bring about, a step leaves no fault but that of a counter that
overruns, and none at all while the clock has room; and what is computed without a check is exact. -/
theorem Reachable.next_orderly (h : Reachable m) :
    (∀ f ∈ (Machine.next m).record.faults, f = .counter) ∧
      (m.Room 0x200000000 1 → Orderly m) ∧ ExactArithmetic :=
  ⟨(next_safe h.wellFormed).2, orderly_of_room h.wellFormed, exactArithmetic⟩

set_option maxRecDepth 10000 in
theorem next_orderly_busy : Reachable busy ∧ busy.Room 0x200000000 1 ∧
    (busy.cpu.muldiv.pending.map fun p => (p.op, p.lhs, p.rhs)) = some (.div, 0x50002, 0) ∧
    busy.cpu.slots.load = .pending 11 0x50002 ∧ (busy.bus.dma.channel 2).countdown = some 49 ∧
    (busy.bus.serial.port 0).timer = ⟨80, some 60⟩ ∧
    (Machine.next busy).record.faults = [] ∧ (Machine.next busy).value.1.toNat = 39 ∧
    (Machine.next busy).value.2.cpu.regs.lo = 0xffffffff := by
  have hroom : busy.Room 0x200000000 1 := ⟨by decide +kernel, by decide +kernel⟩
  have h := reachable_busy.next_orderly.2.1 hroom
  refine ⟨reachable_busy, hroom, by decide +kernel, by decide +kernel, by decide +kernel, by decide +kernel,
    h.faults, ?_, by decide +kernel⟩
  rw [h.elapsed]
  decide +kernel

end R3000.Machine
