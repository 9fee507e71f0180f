import R3000.Bus.Access
import R3000.DataArray
import R3000.Proofs.Alignment

/-! # Bytes of one word

What answers an access depends on the word that it falls into and not on the byte: segments, the regions
of the bus and the groups of registers all begin and end with a word. -/
namespace R3000

namespace Lane
variable {a k : UInt32}

theorem toNat_base (a : UInt32) : (base a).toNat = a.toNat / 4 * 4 := by
  have hmask : ∀ i < 32, Nat.testBit 0xfffffffc i = decide (2 ≤ i) := by decide
  have hshift : a.toNat / 4 * 4 = (a.toNat >>> 2) <<< 2 := by
    rw [Nat.shiftLeft_eq, Nat.shiftRight_eq_div_pow]
  rw [hshift]
  apply Nat.eq_of_testBit_eq
  intro i
  show Nat.testBit (a.toNat &&& 0xfffffffc) i = _
  rw [Nat.testBit_and, Nat.testBit_shiftLeft, Nat.testBit_shiftRight]
  by_cases hi : i < 32
  · rw [hmask i hi, Bool.and_comm]
    by_cases h2 : 2 ≤ i
    · rw [show 2 + (i - 2) = i by omega]
    · rw [decide_eq_false h2, Bool.false_and, Bool.false_and]
  · have hp : 2 ^ 32 ≤ 2 ^ i := Nat.pow_le_pow_right (by decide) (Nat.not_lt.mp hi)
    rw [show 2 + (i - 2) = i by omega,
      Nat.testBit_lt_two_pow (Nat.lt_of_lt_of_le a.toNat_lt hp), Bool.false_and, Bool.and_false]

/-- A bound that lies between words does not part the bytes of one. -/
theorem base_lt (hk : k.toNat % 4 = 0) : base a < k ↔ a < k := by
  rw [UInt32.lt_iff_toNat_lt, UInt32.lt_iff_toNat_lt, toNat_base]
  omega

theorem le_base (hk : k.toNat % 4 = 0) : k ≤ base a ↔ k ≤ a := by
  rw [← UInt32.not_lt, ← UInt32.not_lt, base_lt hk]

theorem base_sub (hk : k.toNat % 4 = 0) (h : k ≤ a) : base a - k = base (a - k) := by
  have hle := UInt32.le_iff_toNat_le.mp h
  rw [← UInt32.toNat_inj, toNat_base, UInt32.toNat_sub_of_le _ _ h,
    UInt32.toNat_sub_of_le _ _ ((le_base hk).mpr h), toNat_base]
  omega

theorem base_and (a mask : UInt32) : base (a &&& mask) = base a &&& mask := by
  simp only [base]
  rw [UInt32.and_assoc, UInt32.and_assoc, UInt32.and_comm mask]

theorem base_base (a : UInt32) : base (base a) = base a := by
  rw [← UInt32.toNat_inj, toNat_base, toNat_base]
  omega

/-- The pieces of a word lie in it. -/
theorem base_add_piece {l : Fin 4} {p : UInt32 × Width} (hp : p ∈ upTo l ++ onward l) (a : UInt32) :
    base (base a + p.1) = base a := by
  have hlane : ∀ l : Fin 4, ∀ p ∈ upTo l ++ onward l, p.1.toNat < 4 := by decide
  have h := hlane l p hp
  have ha := a.toNat_lt
  rw [← UInt32.toNat_inj, toNat_base, UInt32.toNat_add, toNat_base]
  omega

end Lane

theorem Segment.of_base (a : UInt32) : Segment.of (Lane.base a) = Segment.of a := by
  simp only [Segment.of]
  simp (disch := decide) only [Lane.base_lt]

theorem translate_base (a : UInt32) : translate (Lane.base a) = Lane.base (translate a) := by
  simp only [translate]
  rw [Segment.of_base]
  cases Segment.of a with
  | kseg2 => rfl
  | _ => exact (Lane.base_and _ _).symm

theorem DataArray.covers_base (a : UInt32) : covers (Lane.base a) = covers a := by
  simp only [covers]
  rw [decide_eq_decide.mpr (Lane.le_base (show base.toNat % 4 = 0 from rfl)),
    decide_eq_decide.mpr (Lane.base_lt (show (base + size).toNat % 4 = 0 from rfl))]

namespace Bus

/-- The physical address belongs to no part of the machine, and the device outside answers for it. -/
def unclaimed (addr : UInt32) : Bool :=
  match Region.of addr with
  | .external => true
  | .io offset => (Group.of? offset).isNone
  | _ => false

theorem Group.isNone_base (a : UInt32) :
    (Group.of? (Lane.base a)).isNone = (Group.of? a).isNone := by
  simp only [Group.of?]
  simp (disch := decide) only [Lane.base_lt]
  repeat' split
  all_goals rfl

theorem unclaimed_base (a : UInt32) : unclaimed (Lane.base a) = unclaimed a := by
  simp only [unclaimed, Region.of]
  simp (disch := decide) only [Lane.base_lt]
  by_cases hram : a < ramWindowEnd
  · rw [if_pos hram, if_pos hram]
  by_cases hio : a < ioBase
  · rw [if_neg hram, if_neg hram, if_pos hio, if_pos hio]
  have hbase : Lane.base a - ioBase = Lane.base (a - ioBase) :=
    Lane.base_sub rfl (UInt32.not_lt.mp hio)
  rw [if_neg hram, if_neg hram, if_neg hio, if_neg hio, hbase]
  by_cases hend : a < 0x1f802000
  · rw [if_pos hend, if_pos hend]
    exact Group.isNone_base _
  by_cases hrom : a < romBase
  · rw [if_neg hend, if_neg hend, if_pos hrom, if_pos hrom]
  rw [if_neg hend, if_neg hend, if_neg hrom, if_neg hrom]
  by_cases hlast : a < 0x1fc80000
  · rw [if_pos hlast, if_pos hlast]
  · rw [if_neg hlast, if_neg hlast]

end Bus
end R3000
