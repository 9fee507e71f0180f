import R3000.Proofs.BusCourse
import R3000.Proofs.DeviceTime
import R3000.Proofs.DmaFlags
import R3000.Proofs.HostCalls

/-! # Invariants of the DMA controller

Stores to its registers and time alone change the channels of the controller and their enables. What both
keep, of channels that are idle at power-on, holds in every state that a host can bring about. -/
namespace R3000

namespace Dma.Controller
variable {δ : Type}

theorem dpcr_later (c : Controller δ) (cycles : UInt32) : (c.later cycles).dpcr = c.dpcr := by
  simp only [later]
  generalize Bus.channels = l
  induction l generalizing c with
  | nil => rfl
  | cons i l ih => exact ih (c.pass cycles i)

theorem channel_later (c : Controller δ) (cycles : UInt32) (i : Fin 7) :
    (c.later cycles).channel i = (c.channel i).later cycles :=
  (past_later cycles i c).channel

end Dma.Controller

namespace Bus
variable {δ : Type} {b t : Bus δ}

/-- A store elsewhere leaves the controller alone. -/
theorem write_elsewhere {addr : UInt32} (h : dmaRegister? addr = none) (value : UInt32) (w : Width)
    (b : Bus δ) : (write addr value w b).value.2.dma = b.dma := by
  simp only [dmaRegister?] at h
  unfold write
  cases hr : Region.of addr with
  | io offset =>
    rw [hr] at h
    dsimp only at h ⊢
    simp only [ioWrite]
    cases hg : Group.of? offset with
    | none => rfl
    | some g =>
      rw [hg] at h
      cases g with
      | dma reg => cases h
      | _ => rfl
  | _ => rfl

end Bus

namespace Dma

/-- A property of channels and enables that the controller starts with, and that stores and time keep. -/
structure Lasting (P : ∀ δ : Type, Controller δ → Prop) : Prop where
  idle : ∀ {δ} {c : Controller δ}, c.channels = Vector.replicate 7 {} → P δ c
  congr : ∀ {δ ε} {c : Controller δ} {d : Controller ε}, P δ c → d.channels = c.channels →
    d.dpcr = c.dpcr → P ε d
  later : ∀ {δ} {c : Controller δ} (cycles : UInt32), P δ c → P δ (c.later cycles)
  store : ∀ {δ} {b : Bus δ} (offset value : UInt32), P δ b.dma →
    P δ (Bus.dmaWrite offset value b).value.2.dma

namespace Lasting
variable {P : ∀ δ : Type, Controller δ → Prop} (lasting : Lasting P) {δ : Type}
include lasting

theorem write {b : Bus δ} (h : P δ b.dma) (addr value : UInt32) (w : Width) :
    P δ (Bus.write addr value w b).value.2.dma := by
  cases hreg : Bus.dmaRegister? addr with
  | none =>
    rw [Bus.write_elsewhere hreg]
    exact h
  | some reg =>
    rw [(Bus.write_dma hreg value w b).2]
    exact lasting.store _ _ h

theorem update {b : Bus δ} (h : P δ b.dma) (cycles : UInt32) :
    P δ (Bus.update cycles b).value.2.dma := by
  have hserial : ∀ t : Bus δ, (Bus.serialUpdate cycles t).value.2.dma = t.dma := fun t => by
    rw [(Bus.serialUpdate_eq t cycles).2]
  have hlater := lasting.later cycles h
  rw [← (Bus.dmaUpdate_later cycles b).2, ← hserial] at hlater
  simp only [Bus.update]
  split
  · generalize Bus.dmaUpdate cycles = transfers at hlater ⊢
    generalize Bus.serialUpdate cycles = bits at hlater ⊢
    exact hlater
  · exact h

theorem carried : Bus.Carried fun b t : Bus δ => P δ b.dma → P δ t.dma where
  refl _ := id
  trans h k := k ∘ h
  read addr w _ _ h := lasting.congr h (by rw [(Bus.read_kept addr w).1.dma])
    (by rw [(Bus.read_kept addr w).1.dma])
  write addr value w _ _ h := lasting.write h addr value w
  update cycles _ h := lasting.update h cycles

theorem bindReader {c : Controller δ} (h : P δ c) (channel : Nat) (r : Reader δ) :
    P δ (c.bindReader channel r).value := by
  simp only [Controller.bindReader]
  split
  · split
    · exact h
    · exact lasting.congr h rfl rfl
  · exact h

theorem bindWriter {c : Controller δ} (h : P δ c) (channel : Nat) (w : Writer δ) :
    P δ (c.bindWriter channel w).value := by
  simp only [Controller.bindWriter]
  split
  · split
    · exact h
    · exact lasting.congr h rfl rfl
  · exact h

theorem machine {γ : Type} {m : Machine γ δ} (h : m.Reachable) : P δ m.bus.dma := by
  induction h with
  | create | reset => exact lasting.idle rfl
  | attachGte _ _ _ ih | attachDevice _ _ _ ih => exact ih
  | listen _ _ _ ih | raise _ _ ih | serialInput _ _ _ _ ih => exact ih
  | bindReader channel r _ ih => exact lasting.bindReader ih channel r
  | bindWriter channel w _ ih => exact lasting.bindWriter ih channel w
  | @loadRom _ _ m image _ ih =>
    obtain ⟨rom, hrom⟩ := Machine.loadRom_frame m image
    rw [hrom]
    exact ih
  | @poke _ _ m addr words _ ih =>
    obtain ⟨ram, hram⟩ := Machine.poke_frame m addr words
    rw [hram]
    exact ih
  | @restore _ _ _ _ m c _ _ _ ih =>
    rw [m.restore_saved c.savestate]
    show P _ (m.restored c.savestate).bus.dma
    exact lasting.congr ih rfl rfl
  | @next _ _ m _ ih => exact Machine.bus_next lasting.carried m ih

/-- It holds in every state that a host can bring about. -/
theorem reachable {b : Bus δ} (h : b.Reachable) : P δ b.dma := by
  induction h with
  | between hm => exact lasting.machine hm
  | @within _ m hm =>
    have hstep : Moves (Machine.carrying _ lasting.carried) Machine.step m := Machine.Carrying.step _
    exact hstep (lasting.machine hm)
  | update cycles _ ih => exact lasting.update ih cycles

end Lasting
end Dma
end R3000
