import R3000.Proofs.DeviceTime
import R3000.Proofs.DmaCompletion

/-! # The interrupt of the DMA controller

The master flag shows its level whatever is done to the controller, and where it rises the source of the
controller is raised. A write to the interrupt register takes the master flag down before the level is
looked at: it raises the source whenever the flag is set afterwards, also where it has been set before. -/
namespace R3000

namespace Dma.Dicr
variable {d : Dicr}

theorem flags_ne_zero : d.flags ≠ 0 ↔ ∃ i : Fin 7, Word.bit d.word (24 + i) := by
  have hmask : ∀ k < 32, Word.bit 0x7f000000 k = decide (24 ≤ k ∧ k < 31) := by decide
  have hbit : ∀ k < 32, Word.bit d.flags k = (Word.bit d.word k && decide (24 ≤ k ∧ k < 31)) := by
    intro k hk
    simp only [flags, Word.bit_and]
    rw [hmask k hk]
  constructor
  · intro h
    refine Decidable.byContradiction fun hnone => ?_
    refine h (Word.eq_of_bit fun k hk => ?_)
    rw [hbit k hk, show Word.bit 0 k = false from Nat.zero_testBit k]
    by_cases hrange : 24 ≤ k ∧ k < 31
    · have hi := not_exists.mp hnone ⟨k - 24, by omega⟩
      rw [show 24 + (k - 24) = k by omega] at hi
      simp [hi]
    · simp [hrange]
  · rintro ⟨i, hi⟩ h
    have hflag := hbit (24 + i) (by omega)
    rw [h, hi, show Word.bit 0 (24 + i.val) = false from Nat.zero_testBit _] at hflag
    simp at hflag
    omega

/-- A write takes the master flag down. -/
theorem master_write (d : Dicr) (value : UInt32) : (d.write value).master = false := by
  have hflags : Word.bit 0x7f000000 31 = false := by decide
  have hrest : Word.bit 0x00ffffff 31 = false := by decide
  simp [master, write, flags, hflags, hrest]

end Dma.Dicr

namespace Bus
variable {δ : Type} {b : Bus δ}

/-- What operations on the DMA controller do to its master flag and to its source. -/
structure Signals (b : Bus δ) (op : Dma.Operation) : Prop where
  settled : (op.run b).value.2.dma.dicr.Settled
  /-- All but writes to the interrupt register raise the source where the master flag rises. -/
  edge : (∀ value, op ≠ .write 0x74 value) → (op.run b).value.2.int =
    b.int.raised Interrupt.Source.dma (b.dma.dicr.rises (op.run b).value.2.dma.dicr)
  /-- Those raise it wherever they leave the flag set. -/
  level : ∀ value, op = .write 0x74 value → (op.run b).value.2.int =
    b.int.raised Interrupt.Source.dma (op.run b).value.2.dma.dicr.master.toNat

theorem stored_of_ne {offset : UInt32} (h : offset ≠ 0x74) (value : UInt32) (b : Bus δ) :
    (stored offset value b).int = b.int ∧ (stored offset value b).dma.dicr = b.dma.dicr := by
  unfold stored
  split
  · exact ⟨rfl, rfl⟩
  split
  · exact ⟨rfl, rfl⟩
  · split <;> exact ⟨rfl, rfl⟩

theorem stored_dicr (value : UInt32) (b : Bus δ) : (stored 0x74 value b).dma.dicr =
      (b.dma.dicr.write value).settle ∧
    (stored 0x74 value b).int =
      b.int.raised Interrupt.Source.dma (b.dma.dicr.write value).settle.master.toNat := by
  unfold stored
  rw [if_neg (by decide), if_pos rfl]
  refine ⟨rfl, ?_⟩
  simp only [withDma, Dma.Dicr.rises]
  rw [Dma.Dicr.master_write, Bool.not_false, Bool.and_true]

theorem update_signals (h : b.dma.dicr.Settled) (cycles : UInt32) : Signals b (.update cycles) := by
  have hleads := dmaUpdate_leads h cycles
  rw [← Dma.Operation.run_update] at hleads
  refine ⟨?_, fun _ => ?_, fun _ hop => by cases hop⟩
  · rw [hleads.state]
    exact (Dma.Controller.settled_foldl h channels).1
  · rw [hleads.state]
    rfl

theorem write_signals (h : b.dma.dicr.Settled) (offset value : UInt32) :
    Signals b (.write offset value) := by
  have hstate := (dmaWrite_stored offset value b).2
  have htried := tried 0 (tries offset) (stored offset value b)
  rw [← Dma.Operation.run_write] at hstate
  have hdicr := (congrArg (·.dma.dicr) hstate).trans htried.dicr
  have hint := (congrArg (·.int) hstate).trans htried.int
  by_cases h4 : offset = 0x74
  · subst h4
    obtain ⟨hs, hi⟩ := stored_dicr value b
    rw [hs] at hdicr
    rw [hi] at hint
    refine ⟨?_, fun hop => absurd rfl (hop value), fun _ _ => ?_⟩
    · rw [hdicr]
      exact Dma.Dicr.settled_setMaster _
    · rw [hint, hdicr]
  · obtain ⟨hi, hs⟩ := stored_of_ne h4 value b
    rw [hs] at hdicr
    rw [hi] at hint
    refine ⟨?_, fun _ => ?_, fun v hop => ?_⟩
    · rw [hdicr]
      exact h
    · rw [hint, hdicr, Dma.Dicr.rises, Bool.and_not_self]
      rfl
    · cases hop
      exact absurd rfl h4

/-- In every state that a host can bring about the master flag shows its level, and every operation on
the controller signals as it should. -/
theorem Reachable.signals (h : b.Reachable) :
    (b.dma.dicr.master ↔ Word.bit b.dma.dicr.word 15 ∨
      Word.bit b.dma.dicr.word 23 ∧ ∃ i : Fin 7, Word.bit b.dma.dicr.word (24 + i)) ∧
    ∀ op, Signals b op := by
  have hsettled := h.wellFormed.dicr
  refine ⟨?_, fun op => ?_⟩
  · rw [hsettled, ← Dma.Dicr.flags_ne_zero]
    simp [Dma.Dicr.level]
  · cases op with
    | update cycles => exact update_signals hsettled cycles
    | write offset value => exact write_signals hsettled offset value

/-- Forces the master flag and acknowledges the interrupt that this raises. -/
def forced : Machine Gte.Registers Unit :=
  (Machine.booting [0x3c08bf80, 0x34098000, 0x340a0008, 0xad0a1074, 0xad0910f4, 0xad001070]
    (by decide)).steps 6

theorem reachable_forced : forced.bus.Reachable :=
  .between (.steps 6 (Machine.reachable_booting _ _))

set_option maxRecDepth 10000 in
theorem signals_forced : forced.bus.Reachable ∧ forced.bus.dma.dicr.master = true ∧
    forced.bus.int.pending = 0 ∧
    ((Dma.Operation.write 0x74 0x8000).run forced.bus).value.2.dma.dicr.master = true ∧
    ((Dma.Operation.write 0x74 0x8000).run forced.bus).value.2.int.pending = 8 := by
  have h := (reachable_forced.signals.2 (.write 0x74 0x8000)).level 0x8000 rfl
  have hmaster : ((Dma.Operation.write 0x74 0x8000).run forced.bus).value.2.dma.dicr.master = true := by
    decide +kernel
  refine ⟨reachable_forced, by decide +kernel, by decide +kernel, hmaster, ?_⟩
  rw [h, hmaster]
  decide +kernel

set_option maxRecDepth 10000 in
/-- A write that finds the master flag set and leaves it set raises the source once more. -/
theorem raised_without_rise : ¬∀ b : Bus Unit, b.Reachable → ∀ op : Dma.Operation,
    (op.run b).value.2.int =
      b.int.raised Interrupt.Source.dma (b.dma.dicr.rises (op.run b).value.2.dma.dicr) := by
  intro h
  have hint := congrArg Interrupt.Controller.pending
    (h forced.bus reachable_forced (.write 0x74 0x8000))
  revert hint
  decide +kernel

end Bus
end R3000
