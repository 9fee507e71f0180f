import R3000.Bus.Access
import R3000.Proofs.WordBits

/-! # Where an access arrives

An address belongs to a bank of memory or to the window, and an offset into the window to a register. Each
offset that is computed on the way lies within what it is an offset into. -/
namespace R3000

theorem Word.toNat_sub_within {a lo hi : UInt32} (hlo : ¬a < lo) (hhi : a < hi) :
    a.toNat = lo.toNat + (a - lo).toNat ∧ (a - lo).toNat < hi.toNat - lo.toNat := by
  rw [UInt32.lt_iff_toNat_lt] at hlo hhi
  rw [UInt32.toNat_sub_of_le _ _ (UInt32.le_iff_toNat_le.mpr (Nat.not_lt.mp hlo))]
  omega

namespace Bus

/-- The bank of an address, and an offset that lies in it. -/
def Region.At (addr : UInt32) : Region → Prop
  | .ram offset => addr.toNat < 0x800000 ∧ offset = addr.toNat % ramSize ∧ offset < ramSize
  | .io offset => addr.toNat = 0x1f801000 + offset.toNat ∧ offset.toNat < 0x1000
  | .rom offset => addr.toNat = 0x1fc00000 + offset ∧ offset < romSize
  | .external => True

theorem Region.at_of (addr : UInt32) : (Region.of addr).At addr := by
  simp only [Region.of]
  split
  · exact ⟨UInt32.lt_iff_toNat_lt.mp ‹_›, rfl, Nat.mod_lt _ (by decide)⟩
  split
  · trivial
  split
  · exact Word.toNat_sub_within ‹_› ‹_›
  split
  · trivial
  split
  · exact Word.toNat_sub_within ‹_› ‹_›
  · trivial

/-- The registers at an offset into the window, each of which there is. -/
def Group.At (offset : UInt32) : Group → Prop
  | .memoryControl index => index < 9 ∧ offset.toNat / 4 = index
  | .serial port reg => port < 2 ∧ reg.toNat < 0x10 ∧ offset.toNat = 0x40 + 0x10 * port + reg.toNat
  | .ramSize => offset.toNat / 4 = 0x18
  | .interrupt index => index < 2 ∧ offset.toNat / 4 = 0x1c + index
  | .dma reg => reg.toNat < 0x80 ∧ offset.toNat = 0x80 + reg.toNat

theorem Group.at_of {offset : UInt32} {g : Group} (h : Group.of? offset = some g) : g.At offset := by
  have hreg : (offset &&& 0xf).toNat = offset.toNat % 0x10 := by
    rw [UInt32.toNat_and]
    exact Nat.and_two_pow_sub_one_eq_mod _ 4
  simp only [Group.of?] at h
  repeat' split at h
  all_goals cases h
  · have hhi := UInt32.lt_iff_toNat_lt.mp ‹offset < 0x24›
    have hindex := Word.toNat_shiftRight offset 2 4 rfl
    exact ⟨hindex ▸ Nat.div_lt_of_lt_mul hhi, hindex.symm⟩
  · obtain ⟨hlo, hhi⟩ := Word.toNat_sub_within ‹¬offset < 0x40› ‹offset < 0x60›
    simp only [At, Word.toNat_shiftRight _ 4 0x10 rfl, UInt32.reduceToNat] at *
    omega
  · obtain ⟨hlo, hhi⟩ := Word.toNat_sub_within ‹¬offset < 0x60› ‹offset < 0x64›
    simp only [At, UInt32.reduceToNat] at *
    omega
  · obtain ⟨hlo, hhi⟩ := Word.toNat_sub_within ‹¬offset < 0x70› ‹offset < 0x78›
    simp only [At, Word.toNat_shiftRight _ 2 4 rfl, UInt32.reduceToNat] at *
    omega
  · obtain ⟨hlo, hhi⟩ := Word.toNat_sub_within ‹¬offset < 0x80› ‹offset < 0x100›
    exact ⟨hhi, hlo⟩

end Bus
end R3000
