import R3000.Proofs.Reachability

/-! # What a host call leaves alone

Between steps a host may attach and bind what belongs to a machine, load the ROM, poke RAM, drive inputs
and reset. Only a reset touches the processor, and no call touches the configuration. -/
namespace R3000.Machine

/-- The second machine is what one call of a host makes of the first one. -/
inductive Handled : {γ δ γ' δ' : Type} → Machine γ δ → Machine γ' δ' → Prop
  | attachGte {γ γ' δ : Type} (m : Machine γ δ) (gte : Gte γ') (gteState : γ') :
      Handled m ⟨m.config, m.cpu, m.bus, gte, gteState⟩
  | attachDevice {γ δ : Type} (m : Machine γ δ) (device : Device δ) (outside : δ) :
      Handled m { m with bus := { m.bus with device, outside } }
  | loadRom {γ δ : Type} (m : Machine γ δ) (image : ByteArray) : Handled m (loadRom image m).value.2
  | poke {γ δ : Type} (m : Machine γ δ) (addr : UInt32) (words : List UInt32) :
      Handled m (poke addr words m).value.2
  | raise {γ δ : Type} (m : Machine γ δ) (sources : UInt32) :
      Handled m (onBus (Bus.raise sources) m).value.2
  | serialInput {γ δ : Type} (m : Machine γ δ) (port : Nat) (mask levels : UInt32) :
      Handled m (onBus (Bus.serialInput port mask levels) m).value.2
  | listen {γ δ : Type} (m : Machine γ δ) (port : Nat) (l : Serial.Listener δ) :
      Handled m (listen port l m).value.2
  | bindReader {γ δ : Type} (m : Machine γ δ) (channel : Nat) (r : Dma.Reader δ) :
      Handled m (bindReader channel r m).value.2
  | bindWriter {γ δ : Type} (m : Machine γ δ) (channel : Nat) (w : Dma.Writer δ) :
      Handled m (bindWriter channel w m).value.2
  | reset {γ δ : Type} (m : Machine γ δ) : Handled m (reset m).value.2

variable {γ δ γ' δ' : Type} {m : Machine γ δ} {t : Machine γ' δ'}

theorem poke_frame (m : Machine γ δ) (addr : UInt32) (words : List UInt32) :
    ∃ ram, (poke addr words m).value.2 = { m with bus := { m.bus with ram } } := by
  induction words generalizing m addr with
  | nil => exact ⟨m.bus.ram, rfl⟩
  | cons w words ih =>
    obtain ⟨ram, h⟩ := ih { m with bus := { m.bus with ram := m.bus.ram.setWord addr w } } (addr + 4)
    exact ⟨ram, h⟩

theorem loadRom_frame (m : Machine γ δ) (image : ByteArray) :
    ∃ rom, (loadRom image m).value.2 = { m with bus := { m.bus with rom } } := by
  simp only [loadRom]
  cases Rom.ofImage? image with
  | some rom => exact ⟨rom, rfl⟩
  | none => exact ⟨m.bus.rom, rfl⟩

namespace Handled

theorem reachable (h : Handled m t) (hm : m.Reachable) : t.Reachable := by
  cases h with
  | attachGte => exact hm.attachGte _ _
  | attachDevice => exact hm.attachDevice _ _
  | loadRom => exact hm.loadRom _
  | poke => exact hm.poke _ _
  | raise => exact hm.raise _
  | serialInput => exact hm.serialInput _ _ _
  | listen => exact hm.listen _ _
  | bindReader => exact hm.bindReader _ _
  | bindWriter => exact hm.bindWriter _ _
  | reset => exact hm.reset

theorem config (h : Handled m t) : t.config = m.config := by
  cases h with
  | loadRom _ image =>
    obtain ⟨rom, hrom⟩ := loadRom_frame m image
    rw [hrom]
  | poke _ addr words =>
    obtain ⟨ram, hram⟩ := poke_frame m addr words
    rw [hram]
  | attachGte | attachDevice | raise | serialInput | listen | bindReader | bindWriter | reset => rfl

/-- The processor stays as it is, or starts again. -/
theorem cpu (h : Handled m t) : t.cpu = m.cpu ∨ t.cpu = m.cpu.reset := by
  cases h with
  | loadRom _ image =>
    obtain ⟨rom, hrom⟩ := loadRom_frame m image
    rw [hrom]
    exact .inl rfl
  | poke _ addr words =>
    obtain ⟨ram, hram⟩ := poke_frame m addr words
    rw [hram]
    exact .inl rfl
  | attachGte | attachDevice | raise | serialInput | listen | bindReader | bindWriter => exact .inl rfl
  | reset => exact .inr rfl

end Handled
end R3000.Machine
