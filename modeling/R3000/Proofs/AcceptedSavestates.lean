import R3000.Proofs.InterruptLine
import R3000.Proofs.Reachability
import R3000.Proofs.StoredForms

/-! # What a machine accepts as a savestate

A machine takes over whatever state its input begins with, and checks the form of that state but not its sense.
So the machine is in good order afterwards just if the state was, as that of every machine is that a host can
bring about. -/
namespace R3000

/-- The state of a machine in good order: what execution takes for granted of it. -/
structure Savestate.Consistent (s : Savestate) : Prop where
  loads : s.cpu.slots.WellFormed
  timers : ∀ i : Fin 2, (s.ports.get i).timer.WellFormed
  bits : ∀ i : Fin 2, (s.ports.get i).txBits ≤ 8 ∧
    (s.ports.get i).txBits.toNat + (s.ports.get i).rxBits.toNat ≤ 8
  line : s.int.Shown
  ram : s.ram.bytes.size = ramSize

namespace Machine
variable {γ δ γ' δ' : Type} {m : Machine γ δ} {c : Machine γ' δ'}

theorem Reachable.savestate_consistent (h : m.Reachable) : m.savestate.Consistent where
  loads := h.wellFormed.slots
  timers i := (h.wellFormed.bus.serial i).timer
  bits i := by
    have hbits := (h.wellFormed.bus.serial i).bits
    exact ⟨UInt8.le_iff_toNat_le.mpr (Nat.le_trans (Nat.le_add_right _ _) hbits), hbits⟩
  line := h.shown
  ram := m.bus.ram.size_eq

/-- The machine has taken over the state that its input begins with, and nothing else of it has changed. -/
structure TakesOver (m : Machine γ δ) (input : List UInt8) (s : Savestate) (t : Machine γ δ) : Prop where
  stored : ∃ extra, input = s.toBytes ++ extra
  state : t.savestate = s
  ram : t.bus.ram.bytes.size = ramSize
  config : t.config = m.config
  rom : t.bus.rom = m.bus.rom
  device : t.bus.device = m.bus.device
  outside : t.bus.outside = m.bus.outside
  gte : t.gte = m.gte
  gteState : t.gteState = m.gteState
  listeners : t.bus.serial.listeners = m.bus.serial.listeners
  readers : t.bus.dma.readers = m.bus.dma.readers
  writers : t.bus.dma.writers = m.bus.dma.writers

theorem TakesOver.restored {input : List UInt8} {s : Savestate} (h : ∃ extra, input = s.toBytes ++ extra)
    (m : Machine γ δ) : m.TakesOver input s (m.restored s) :=
  ⟨h, rfl, s.ram.size_eq, rfl, rfl, rfl, rfl, rfl, rfl, rfl, rfl, rfl⟩

/-- A machine either refuses its input and is left as it was, or takes over the state that the input begins
with. What was saved of a machine that a host can bring about it accepts, and is in good order then. -/
theorem restore_accepts (m : Machine γ δ) (input : List UInt8) :
    ((∃ e, m.restore input = pure (.error e, m)) ∨
      ∃ s t, m.restore input = pure (.ok (), t) ∧ m.TakesOver input s t) ∧
    ∀ extra, c.Reachable → input = c.savestate.toBytes ++ extra →
      ∃ t, m.restore input = pure (.ok (), t) ∧ m.TakesOver input c.savestate t ∧ t.savestate.Consistent := by
  refine ⟨?_, ?_⟩
  · unfold restore
    cases h : Savestate.ofBytes input with
    | error e => exact .inl ⟨e, rfl⟩
    | ok s => exact .inr ⟨s, _, rfl, .restored (Savestate.ofBytes_iff.mp h) m⟩
  · rintro extra hc rfl
    exact ⟨_, m.restore_toBytes c.savestate extra, .restored ⟨extra, rfl⟩ m, hc.savestate_consistent⟩

set_option maxRecDepth 10000 in
theorem restore_accepts_busy : busy.Reachable ∧ busy.cpu.slots.load = .pending 11 0x50002 ∧
    (busy.bus.serial.port 0).timer = ⟨80, some 60⟩ ∧ (busy.bus.dma.channel 2).inFlight = true ∧
    ∃ t, bare.restore (busy.savestate.toBytes ++ [1, 2]) = pure (.ok (), t) ∧
      t.savestate = busy.savestate ∧ t.savestate.Consistent := by
  obtain ⟨-, haccepts⟩ := restore_accepts (c := busy) bare (busy.savestate.toBytes ++ [1, 2])
  obtain ⟨t, hrestore, htakes, hconsistent⟩ := haccepts [1, 2] reachable_busy rfl
  exact ⟨reachable_busy, by decide +kernel, by decide +kernel, by decide +kernel, t, hrestore, htakes.state,
    hconsistent⟩

/-- A state with a load on its way to a register that is not there. -/
def stray : Savestate :=
  { bare.savestate with cpu := { bare.cpu with slots := { load := .pending 100 0 } } }

set_option maxRecDepth 10000 in
/-- It is accepted, and the next step runs into it. -/
theorem stray_accepted : bare.Reachable ∧ bare.restore stray.toBytes = pure (.ok (), bare.restored stray) ∧
    ¬(bare.restored stray).savestate.Consistent ∧
    .register 100 ∈ (next (bare.restored stray)).record.faults := by
  refine ⟨reachable_bare, bare.restore_saved stray, fun h => ?_, by decide +kernel⟩
  exact absurd (h.loads.load 100 0 rfl).2 (by decide)

end Machine
end R3000
