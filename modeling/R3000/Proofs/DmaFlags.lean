import R3000.Proofs.BusSafety
import R3000.Proofs.DmaInterrupt
import R3000.Proofs.Lanes
import R3000.Proofs.Unchanged

/-! # Lanes of the interrupt register of the DMA controller

A store of less than a word writes the whole register, and puts back the lanes that it does not cover as
they read. The flags of the channels are cleared by writing ones to them. So a store beside the flags
writes a one to each flag that is set, and clears them all. -/
namespace R3000

namespace Dma.Dicr
variable {k : Nat}

theorem bit_write (d : Dicr) (value : UInt32) (hk : k < 32) : Word.bit (d.write value).word k =
    if k < 24 then Word.bit value k else decide (k < 31) && Word.bit d.word k && !Word.bit value k := by
  have hflags : ∀ k < 32, Word.bit 0x7f000000 k = decide (24 ≤ k ∧ k < 31) := by decide
  have hrest : ∀ k < 32, Word.bit 0x00ffffff k = decide (k < 24) := by decide
  simp only [write, flags, Word.bit_or, Word.bit_and, Word.bit_not _ hk]
  rw [hflags k hk, hrest k hk]
  by_cases h : k < 24
  · have hle : ¬24 ≤ k := by omega
    simp [h, hle]
  · have hle : 24 ≤ k := by omega
    simp [h, hle, Bool.and_comm]

theorem bit_settle (d : Dicr) (hk : k < 31) : Word.bit d.settle.word k = Word.bit d.word k :=
  (Word.bit_setBit d.word (by decide) (by omega) d.level).trans (if_neg (by omega))

end Dma.Dicr

namespace Bus
variable {δ : Type} {b : Bus δ}

/-- The offset of the DMA register that a physical address belongs to, if it belongs to one. -/
def dmaRegister? (addr : UInt32) : Option UInt32 :=
  match Region.of addr with
  | .io offset =>
    match Group.of? offset with
    | some (.dma reg) => some reg
    | _ => none
  | _ => none

/-- A store to a register of the DMA controller writes its word, with the lane put in. -/
theorem write_dma {addr reg : UInt32} (h : dmaRegister? addr = some reg) (value : UInt32) (w : Width)
    (b : Bus δ) :
    (write addr value w b).record.acts = (dmaWrite (Lane.base reg)
        (Lane.insert (b.dma.read (Lane.base reg)).value value reg w) b).record.acts ∧
      (write addr value w b).value = (.ok (), (dmaWrite (Lane.base reg)
        (Lane.insert (b.dma.read (Lane.base reg)).value value reg w) b).value.2) := by
  simp only [dmaRegister?] at h
  cases hr : Region.of addr with
  | io offset =>
    rw [hr] at h
    dsimp only at h
    split at h
    case h_2 => cases h
    rename_i hg
    cases h
    have hread := acts_dmaRead b.dma (Lane.base reg)
    have hwrite : write addr value w b = (do
        note (.ioWrite offset value)
        dmaWrite (Lane.base reg) (Lane.insert (← dmaRead (Lane.base reg)) value reg w)
        return .ok () : Bus.Op δ (Except BusError Unit)) b := by
      simp only [write, ioWrite]
      rw [hr]
      dsimp only
      rw [hg]
      simp only [writeGroup, bind_assoc, pure_bind, if_true]
    rw [hwrite]
    refine ⟨?_, rfl⟩
    show ([] : List Act) ++ (([] ++ ((b.dma.read (Lane.base reg)).record.acts ++ [])) ++ (_ ++ [])) = _
    rw [hread]
    exact List.append_nil _
  | _ =>
    rw [hr] at h
    cases h

def dicrAddress : UInt32 := 0x1f8010f4

theorem bytes_dicr {addr : UInt32} (h : Lane.base addr = dicrAddress) :
    addr = 0x1f8010f4 ∨ addr = 0x1f8010f5 ∨ addr = 0x1f8010f6 ∨ addr = 0x1f8010f7 := by
  have hbase := Lane.toNat_base addr
  rw [h, show dicrAddress.toNat = 0x1f8010f4 from rfl] at hbase
  simp only [← UInt32.toNat_inj, UInt32.reduceToNat]
  omega

theorem dmaRegister?_dicr {addr : UInt32} (h : Lane.base addr = dicrAddress) (w : Width) :
    ∃ reg, dmaRegister? addr = some reg ∧ Lane.base reg = 0x74 ∧
      Lane.mask reg w = Lane.mask addr w ∧ Lane.shift reg w = Lane.shift addr w := by
  obtain rfl | rfl | rfl | rfl := bytes_dicr h
  · exact ⟨0x74, by decide, by decide, by cases w <;> decide, by cases w <;> decide⟩
  · exact ⟨0x75, by decide, by decide, by cases w <;> decide, by cases w <;> decide⟩
  · exact ⟨0x76, by decide, by decide, by cases w <;> decide, by cases w <;> decide⟩
  · exact ⟨0x77, by decide, by decide, by cases w <;> decide, by cases w <;> decide⟩

/-- What a store to a lane of the interrupt register makes of it: the word with the lane put in is
written. -/
def storedDicr (addr value : UInt32) (w : Width) (d : Dma.Dicr) : Dma.Dicr :=
  (d.write (Lane.insert d.word value addr w)).settle

theorem write_dicr {addr : UInt32} (h : Lane.base addr = dicrAddress) (value : UInt32) (w : Width)
    (b : Bus δ) : (write addr value w b).value = (.ok (),
      { b with
        dma := { b.dma with dicr := storedDicr addr value w b.dma.dicr }
        int := b.int.raised Interrupt.Source.dma
          (storedDicr addr value w b.dma.dicr).master.toNat }) := by
  obtain ⟨reg, hreg, hbase, hmask, hshift⟩ := dmaRegister?_dicr h w
  have hlane : Lane.insert b.dma.dicr.word value reg w = Lane.insert b.dma.dicr.word value addr w := by
    simp only [Lane.insert]
    rw [hmask, hshift]
  rw [(write_dma hreg value w b).2, hbase, show (b.dma.read 0x74).value = b.dma.dicr.word from rfl, hlane,
    (dmaWrite_stored _ _ b).2]
  have hint := (stored_dicr (Lane.insert b.dma.dicr.word value addr w) b).2
  show (_, stored 0x74 _ b) = _
  simp only [storedDicr]
  rw [← hint]
  rfl

/-- A lane covers all of the flags or none of them. -/
theorem mask_flags {addr : UInt32} (h : Lane.base addr = dicrAddress) (w : Width) (i : Fin 7) :
    Word.bit (Lane.mask addr w) (24 + i) = Word.bit (Lane.mask addr w) 24 := by
  revert i
  obtain rfl | rfl | rfl | rfl := bytes_dicr h <;> cases w <;> decide

/-- What a store to a lane of the interrupt register makes of one state of it. -/
structure LaneStored (addr value : UInt32) (w : Width) (d e : Dma.Dicr) : Prop where
  /-- Where the lane covers the flags, each is cleared that is set and written as one. -/
  flags : Word.bit (Lane.mask addr w) 24 → ∀ i : Fin 7, Word.bit e.word (24 + i) =
    (Word.bit d.word (24 + i) && !Word.bit (value <<< Lane.shift addr w) (24 + i))
  /-- Where it does not, each flag that is set is written back as one, and so all are cleared. -/
  beside : ¬Word.bit (Lane.mask addr w) 24 → ∀ i : Fin 7, Word.bit e.word (24 + i) = false
  /-- Below the flags the lane is replaced, and no other bit changes. -/
  below : ∀ k < 24, Word.bit e.word k =
    if Word.bit (Lane.mask addr w) k then Word.bit (value <<< Lane.shift addr w) k
    else Word.bit d.word k
  settled : e.Settled

/-- A store of any width to the interrupt register of the DMA controller touches the controller there
alone, and raises the source of the controller if it leaves the master flag set. -/
theorem write_dicr_lane (b : Bus δ) {addr : UInt32} (h : Lane.base addr = dicrAddress) (value : UInt32)
    (w : Width) :
    LaneStored addr value w b.dma.dicr (storedDicr addr value w b.dma.dicr) ∧
      (write addr value w b).value = (.ok (),
        { b with
          dma := { b.dma with dicr := storedDicr addr value w b.dma.dicr }
          int := b.int.raised Interrupt.Source.dma
            (storedDicr addr value w b.dma.dicr).master.toNat }) := by
  have hflag : ∀ i : Fin 7, Word.bit (storedDicr addr value w b.dma.dicr).word (24 + i) =
      (Word.bit b.dma.dicr.word (24 + i) &&
        !Word.bit (Lane.insert b.dma.dicr.word value addr w) (24 + i)) := by
    intro i
    simp only [storedDicr]
    rw [Dma.Dicr.bit_settle _ (by omega), Dma.Dicr.bit_write _ _ (by omega), if_neg (by omega),
      decide_eq_true (by omega), Bool.true_and]
  refine ⟨⟨fun hcovers i => ?_, fun hbeside i => ?_, fun k hk => ?_, Dma.Dicr.settled_setMaster _⟩,
    write_dicr h value w b⟩
  · rw [hflag, Lane.bit_insert_mask _ _ _ _ (by omega), mask_flags h, if_pos hcovers]
  · rw [hflag, Lane.bit_insert_mask _ _ _ _ (by omega), mask_flags h, if_neg hbeside, Bool.and_not_self]
  · simp only [storedDicr]
    rw [Dma.Dicr.bit_settle _ (by omega), Dma.Dicr.bit_write _ _ (by omega), if_pos hk,
      Lane.bit_insert_mask _ _ _ _ (by omega)]

/-- Lets a burst of one word on channel 2 complete, with its interrupt enabled. -/
def flagged : Machine Gte.Registers Unit :=
  (Machine.booting [0x3c08bf80, 0x34090800, 0xad0910f0, 0x3c090084, 0xad0910f4, 0x34090001, 0xad0910a4,
    0x3c091100, 0x35290001, 0xad0910a8] (by decide)).steps 10

theorem reachable_flagged : flagged.bus.Reachable :=
  .between (.steps 10 (Machine.reachable_booting _ _))

set_option maxRecDepth 10000 in
theorem write_dicr_lane_flagged : Lane.base 0x1f8010f4 = dicrAddress ∧ flagged.bus.Reachable ∧
    flagged.bus.dma.dicr.word = 0x84840000 ∧
    (write 0x1f8010f4 0 .byte flagged.bus).value.2.dma.dicr.word = 0x00840000 ∧
    Word.bit (storedDicr 0x1f8010f4 0 .byte flagged.bus.dma.dicr).word 26 = false := by
  have hbase : Lane.base 0x1f8010f4 = dicrAddress := by decide
  have h := (write_dicr_lane flagged.bus hbase 0 .byte).1
  exact ⟨hbase, reachable_flagged, by decide +kernel, by decide +kernel, h.beside (by decide) 2⟩

set_option maxRecDepth 10000 in
/-- A byte written beside the flags does not leave them as they are. -/
theorem flags_cleared_beside : ¬∀ b : Bus Unit, b.Reachable → ∀ addr value : UInt32, ∀ w : Width,
    w ≠ .word → w.aligned addr → Lane.base addr = dicrAddress →
    ∀ i : Fin 7, Word.bit (write addr value w b).value.2.dma.dicr.word (24 + i) =
      if Word.bit (Lane.mask addr w) 24 then
        Word.bit b.dma.dicr.word (24 + i) && !Word.bit (value <<< Lane.shift addr w) (24 + i)
      else Word.bit b.dma.dicr.word (24 + i) := by
  intro h
  have hflag := h flagged.bus reachable_flagged 0x1f8010f4 0 .byte nofun (by decide) (by decide) 2
  revert hflag
  decide +kernel

end Bus
end R3000
