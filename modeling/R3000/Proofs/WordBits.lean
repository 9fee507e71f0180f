import R3000.Dma.Registers

/-! # Words bit by bit -/
namespace R3000

namespace Word

theorem toNat_add_of_fits {a b : UInt32} (fits : a.toNat + b.toNat < 0x100000000) :
    (a + b).toNat = a.toNat + b.toNat := by
  rw [UInt32.toNat_add, Nat.mod_eq_of_lt fits]

theorem toNat_shiftRight (w k : UInt32) (n : Nat) (h : 1 <<< (k.toNat % 32) = n) :
    (w >>> k).toNat = w.toNat / n := by
  rw [UInt32.toNat_shiftRight, Nat.shiftRight_eq_div_pow, ← Nat.one_shiftLeft, h]

theorem eq_of_bit {a b : UInt32} (h : ∀ i < 32, bit a i = bit b i) : a = b := by
  rw [← UInt32.toNat_inj]
  apply Nat.eq_of_testBit_eq
  intro i
  by_cases hi : i < 32
  · exact h i hi
  · have hp : 2 ^ 32 ≤ 2 ^ i := Nat.pow_le_pow_right (by decide) (Nat.not_lt.mp hi)
    rw [Nat.testBit_lt_two_pow (Nat.lt_of_lt_of_le a.toNat_lt hp),
      Nat.testBit_lt_two_pow (Nat.lt_of_lt_of_le b.toNat_lt hp)]

@[simp] theorem bit_and (a b : UInt32) (i : Nat) : bit (a &&& b) i = (bit a i && bit b i) := by
  simp only [bit]
  rw [UInt32.toNat_and, Nat.testBit_and]

@[simp] theorem bit_or (a b : UInt32) (i : Nat) : bit (a ||| b) i = (bit a i || bit b i) := by
  simp only [bit]
  rw [UInt32.toNat_or, Nat.testBit_or]

theorem bit_not (a : UInt32) {i : Nat} (h : i < 32) : bit (~~~a) i = !bit a i := by
  show (~~~a).toBitVec.getLsbD i = !a.toBitVec.getLsbD i
  rw [UInt32.toBitVec_not, BitVec.getLsbD_not]
  simp [h]

theorem toNat_amount {i : Nat} (hi : i < 32) : (UInt32.ofNat i).toNat % 32 = i := by
  rw [UInt32.toNat_ofNat', Nat.mod_eq_of_lt (Nat.lt_trans hi (by decide)), Nat.mod_eq_of_lt hi]

theorem toNat_single {i : Nat} (hi : i < 32) : (single i).toNat = 1 <<< i := by
  simp only [single]
  rw [UInt32.toNat_shiftLeft, toNat_amount hi, show (1 : UInt32).toNat = 1 from rfl, Nat.one_shiftLeft,
    Nat.mod_eq_of_lt (Nat.pow_lt_pow_right (by decide) hi)]

theorem bit_single {i : Nat} (hi : i < 32) (j : Nat) : bit (single i) j = decide (i = j) := by
  simp only [bit]
  rw [toNat_single hi, Nat.one_shiftLeft, Nat.testBit_two_pow]

theorem bit_setBit (w : UInt32) {i j : Nat} (hi : i < 32) (hj : j < 32) (b : Bool) :
    bit (setBit w i b) j = if i = j then b else bit w j := by
  cases b <;> simp only [setBit, bit_and, bit_or, bit_not _ hj, bit_single hi, if_true, if_false,
    Bool.false_eq_true] <;> by_cases h : i = j <;> simp [h]

theorem bit_shiftLeft (w : UInt32) {k i : Nat} (hk : k < 32) (hi : i < 32) :
    bit (w <<< UInt32.ofNat k) i = (decide (k ≤ i) && bit w (i - k)) := by
  simp only [bit]
  rw [UInt32.toNat_shiftLeft, toNat_amount hk, Nat.testBit_mod_two_pow, Nat.testBit_shiftLeft]
  simp [hi]

theorem bit_shiftRight (w : UInt32) {k : Nat} (hk : k < 32) (i : Nat) :
    bit (w >>> UInt32.ofNat k) i = bit w (k + i) := by
  simp only [bit]
  rw [UInt32.toNat_shiftRight, toNat_amount hk, Nat.testBit_shiftRight]

theorem bit_ones {n : Nat} (hn : n < 32) (i : Nat) : bit (ones n) i = decide (i < n) := by
  have hones : (ones n).toNat = 2 ^ n - 1 := by
    have hle : (1 : UInt32) ≤ single n := by
      rw [UInt32.le_iff_toNat_le, toNat_single hn, Nat.one_shiftLeft]
      exact Nat.one_le_two_pow
    simp only [ones]
    rw [UInt32.toNat_sub_of_le _ _ hle, toNat_single hn, Nat.one_shiftLeft]
    rfl
  simp only [bit]
  rw [hones, Nat.testBit_two_pow_sub_one]

/-- A field that is replaced holds the new value, and no other bit changes. -/
theorem bit_setField (w v : UInt32) {lo width i : Nat} (hlo : lo < 32) (hwidth : width < 32)
    (hi : i < 32) :
    bit (setField w lo width v) i = if lo ≤ i ∧ i < lo + width then bit v (i - lo) else bit w i := by
  simp only [setField, bit_or, bit_and, bit_not _ hi, bit_shiftLeft _ hlo hi, bit_ones hwidth]
  by_cases h : lo ≤ i
  · have hin : i - lo < width ↔ i < lo + width := by omega
    by_cases h' : i < lo + width <;> simp [h, hin, h']
  · simp [h]

theorem bit_field (w : UInt32) {lo width : Nat} (hlo : lo < 32) (hwidth : width < 32) (i : Nat) :
    bit (field w lo width) i = (bit w (lo + i) && decide (i < width)) := by
  simp only [field, bit_and, bit_shiftRight _ hlo, bit_ones hwidth]

/-- A field is made of its bits. -/
theorem field_eq {w v : UInt32} {lo width : Nat} (hlo : lo < 32) (hwidth : width < 32)
    (hv : v.toNat < 1 <<< width) (h : ∀ i < width, bit w (lo + i) = bit v i) :
    field w lo width = v := by
  apply eq_of_bit
  intro i _
  rw [bit_field w hlo hwidth]
  by_cases hi : i < width
  · simp [hi, h]
  · rw [Nat.one_shiftLeft] at hv
    have hpow : 2 ^ width ≤ 2 ^ i := Nat.pow_le_pow_right (by decide) (Nat.not_lt.mp hi)
    have hbit : bit v i = false := Nat.testBit_lt_two_pow (Nat.lt_of_lt_of_le hv hpow)
    simp [hi, hbit]

end Word

namespace Dma.Dicr

/-- The master flag shows its level. -/
def Settled (d : Dicr) : Prop := d.master = d.level

theorem settled_zero : ({} : Dicr).Settled := by
  simp only [Settled]
  decide

@[simp] theorem master_setMaster (d : Dicr) (b : Bool) : (d.setMaster b).master = b := by
  simp only [master, setMaster]
  rw [Word.bit_setBit _ (by decide) (by decide), if_pos rfl]

theorem flags_setMaster (d : Dicr) (b : Bool) : (d.setMaster b).flags = d.flags := by
  apply Word.eq_of_bit
  intro i hi
  simp only [flags, setMaster]
  rw [Word.bit_and, Word.bit_and, Word.bit_setBit _ (by decide) hi]
  split
  · subst i
    rw [show Word.bit 0x7f000000 31 = false by decide, Bool.and_false, Bool.and_false]
  · rfl

@[simp] theorem level_setMaster (d : Dicr) (b : Bool) : (d.setMaster b).level = d.level := by
  simp only [level]
  rw [flags_setMaster]
  simp only [setMaster]
  rw [Word.bit_setBit _ (by decide) (by decide), Word.bit_setBit _ (by decide) (by decide),
    if_neg (by decide), if_neg (by decide)]

theorem settled_setMaster (d : Dicr) : (d.setMaster d.level).Settled := by
  simp only [Settled]
  rw [master_setMaster, level_setMaster]

end Dma.Dicr
end R3000
