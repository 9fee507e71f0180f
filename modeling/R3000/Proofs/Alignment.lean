import R3000.Address
import R3000.ICache
import R3000.Memory
import R3000.Word.Lane

/-! # Alignment

A bank holds every aligned access whose first byte it holds, and translation, lanes and refills keep
addresses aligned. -/
namespace R3000

namespace Width

theorem aligned_iff (w : Width) (addr : UInt32) : w.aligned addr ↔ addr.toNat % w.bytes = 0 := by
  have h : (w.len - 1).toNat = w.bytes - 1 := by cases w <;> rfl
  simp only [aligned]
  rw [beq_iff_eq, ← UInt32.toNat_inj, UInt32.toNat_and, h, UInt32.toNat_zero]
  cases w with
  | byte => simp [bytes, Nat.mod_one]
  | half => exact Iff.of_eq (congrArg (· = 0) (Nat.and_two_pow_sub_one_eq_mod _ 1))
  | word => exact Iff.of_eq (congrArg (· = 0) (Nat.and_two_pow_sub_one_eq_mod _ 2))

theorem aligned_and {w : Width} {addr : UInt32} (h : w.aligned addr) (mask : UInt32) :
    w.aligned (addr &&& mask) := by
  unfold aligned at *
  rw [beq_iff_eq] at *
  rw [UInt32.and_assoc, UInt32.and_comm mask, ← UInt32.and_assoc, h, UInt32.zero_and]

theorem aligned_sub {w : Width} {addr base : UInt32} (h : w.aligned addr) (hb : w.aligned base) :
    w.aligned (addr - base) := by
  have h32 : w.bytes ∣ 2 ^ 32 := by cases w <;> decide
  rw [aligned_iff] at *
  rw [UInt32.toNat_sub, Nat.mod_mod_of_dvd _ h32]
  obtain ⟨k, hk⟩ := h32
  cases w <;> simp only [bytes] at * <;> omega

theorem word_aligned_base (addr : UInt32) : word.aligned (Lane.base addr) := by
  simp only [aligned, Lane.base]
  rw [beq_iff_eq, UInt32.and_assoc]
  exact UInt32.and_zero

theorem piece_aligned (l : Fin 4) :
    ∀ p ∈ Lane.upTo l ++ Lane.onward l, p.1.toNat % p.2.bytes = 0 := by
  revert l
  decide

theorem aligned_add_piece {base : UInt32} (hb : word.aligned base) {l : Fin 4}
    {p : UInt32 × Width} (hp : p ∈ Lane.upTo l ++ Lane.onward l) : p.2.aligned (base + p.1) := by
  have h := piece_aligned l p hp
  obtain ⟨lane, w⟩ := p
  rw [aligned_iff] at *
  rw [UInt32.toNat_add]
  cases w <;> simp only [bytes] at * <;> omega

end Width

theorem translate_aligned {w : Width} {vaddr : UInt32} (h : w.aligned vaddr) :
    w.aligned (translate vaddr) := by
  simp only [translate]
  split
  · exact h
  · exact Width.aligned_and h _

theorem Bank.holds_of_aligned {n offset : Nat} {w : Width} (hn : n % 4 = 0) (h : offset < n)
    (ha : offset % w.bytes = 0) : Bank.holds n offset w := by
  simp only [Bank.holds]
  rw [decide_eq_true_eq]
  cases w <;> simp only [Width.bytes] at * <;> omega

theorem low_shiftLeft (x : UInt32) {k : UInt32} (hk : 2 ≤ k.toNat) (h : k.toNat < 32) :
    (x <<< k).toNat &&& 3 = 0 := by
  rw [UInt32.toNat_shiftLeft, Nat.mod_eq_of_lt h]
  refine (Nat.and_two_pow_sub_one_eq_mod _ 2).trans ?_
  obtain ⟨j, hj⟩ := Nat.exists_eq_add_of_le hk
  rw [Nat.mod_mod_of_dvd _ (by decide), Nat.shiftLeft_eq, hj, Nat.pow_add, ← Nat.mul_assoc,
    Nat.mul_right_comm]
  exact Nat.mul_mod_left _ _

theorem ICache.Address.wordAddr_aligned (a : ICache.Address) (w : Fin 4) :
    Width.word.aligned (a.wordAddr w) := by
  simp only [Width.aligned, wordAddr]
  rw [beq_iff_eq, ← UInt32.toNat_inj, UInt32.toNat_and, UInt32.toNat_or, UInt32.toNat_or]
  show (_ ||| _ ||| _) &&& 3 = 0
  rw [Nat.and_or_distrib_right, Nat.and_or_distrib_right, low_shiftLeft _ (by decide) (by decide),
    low_shiftLeft _ (by decide) (by decide), low_shiftLeft _ (by decide) (by decide)]
  rfl

/-- The words of the line that an address falls into follow one another. -/
theorem ICache.Address.toNat_wordAddr (addr : UInt32) (w : Fin 4) :
    ((of addr).wordAddr w).toNat = addr.toNat / 16 * 16 + 4 * w.val := by
  have ha := addr.toNat_lt
  have htag : ((of addr).tag <<< 12).toNat = (addr.toNat / 4096) <<< 12 := by
    show (addr.toNat >>> 12) <<< 12 % 2 ^ 32 = _
    rw [Nat.shiftRight_eq_div_pow, Nat.mod_eq_of_lt]
    rw [Nat.shiftLeft_eq]
    omega
  have hline : (UInt32.ofNat (of addr).line <<< 4).toNat = (addr.toNat / 16 % 256) <<< 4 := by
    show ((addr.toNat >>> 4 % 256) % 2 ^ 32) <<< 4 % 2 ^ 32 = _
    rw [Nat.shiftRight_eq_div_pow, Nat.mod_eq_of_lt (Nat.lt_trans (Nat.mod_lt _ (by decide)) (by decide)),
      Nat.mod_eq_of_lt]
    rw [Nat.shiftLeft_eq]
    omega
  have hword : (UInt32.ofNat w <<< 2).toNat = 4 * w.val := by
    revert w
    decide
  simp only [wordAddr]
  rw [UInt32.toNat_or, UInt32.toNat_or, htag, hline, hword, Nat.or_assoc,
    ← Nat.shiftLeft_add_eq_or_of_lt (show 4 * w.val < 2 ^ 4 by omega),
    ← Nat.shiftLeft_add_eq_or_of_lt (by rw [Nat.shiftLeft_eq]; omega), Nat.shiftLeft_eq, Nat.shiftLeft_eq]
  omega

end R3000
