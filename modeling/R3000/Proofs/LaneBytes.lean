import Mathlib.Algebra.Group.Nat.Defs
import R3000.Proofs.UnalignedWords

/-! # Lanes of words and slices of bytes

RAM and ROM are reached byte by byte, and the data array and the registers by lanes of words. Both are the
same accesses: on the bytes of a word, lowest first, an aligned access does what the lane at its address
does. A lane gives back what was put into it, and lanes that do not overlap know nothing of each other. -/
namespace R3000

namespace Bank
variable {n : Nat}

theorem eq_of_byte {a b : Bank n} (h : ∀ i < n, a.byte i = b.byte i) : a = b := by
  obtain ⟨⟨a⟩, ha⟩ := a
  obtain ⟨⟨b⟩, hb⟩ := b
  have hdata : a = b := by
    refine Array.ext (ha.trans hb.symm) fun i hi _ => ?_
    have hi : i < n := ha ▸ hi
    have hbyte := h i hi
    rw [byte, byte, dif_pos hi, dif_pos hi] at hbyte
    exact hbyte
  subst hdata
  rfl

def ofWord (word : UInt32) : Bank 4 :=
  ⟨⟨#[word.toUInt8, (word >>> 8).toUInt8, (word >>> 16).toUInt8, (word >>> 24).toUInt8]⟩, rfl⟩

theorem byte_ofWord (word : UInt32) {k : Nat} (hk : k < 4) : (ofWord word).byte k = Word.byte word k := by
  obtain rfl | rfl | rfl | rfl : k = 0 ∨ k = 1 ∨ k = 2 ∨ k = 3 := by omega
  · show word.toUInt8 = (word >>> 0).toUInt8
    rw [UInt32.shiftRight_zero]
  · rfl
  · rfl
  · rfl

theorem read_ofWord (word : UInt32) : (ofWord word).read 0 .word = word := by
  apply Word.eq_of_bit
  intro i hi
  have hlow : i % 8 < 8 := by omega
  have hindex : 8 * (i / 8) + i % 8 = i := by omega
  rw [bit_read _ _ _ hi, Nat.zero_add, byte_ofWord _ (by omega), Word.testBit_byte _ (by omega), hindex,
    decide_eq_true hlow, Bool.true_and]
  exact (congrArg (· && _) (decide_eq_true hi)).trans (Bool.true_and _)

/-- Four bytes are those of the word that they make. -/
theorem ofWord_read (b : Bank 4) : ofWord (b.read 0 .word) = b := by
  apply eq_of_byte
  intro k hk
  rw [byte_ofWord _ hk, ← UInt8.toNat_inj]
  apply Nat.eq_of_testBit_eq
  intro i
  rw [Word.testBit_byte _ hk]
  by_cases hi : i < 8
  · have hword : 8 * k + i < 8 * Width.word.bytes := by
      simp only [Width.bytes]
      omega
    have hbyte : (8 * k + i) / 8 = k := by omega
    have hbit : (8 * k + i) % 8 = i := by omega
    rw [bit_read _ _ _ (by omega), hbyte, hbit, Nat.zero_add, decide_eq_true hi, decide_eq_true hword,
      Bool.true_and, Bool.true_and]
  · have hhigh : (b.byte k).toNat.testBit i = false := Nat.testBit_lt_two_pow
      (Nat.lt_of_lt_of_le (b.byte k).toNat_lt (Nat.pow_le_pow_right (by decide) (Nat.not_lt.mp hi)))
    rw [decide_eq_false hi, Bool.false_and, hhigh]

end Bank

namespace Lane
variable {addr : UInt32} {w : Width}

theorem read_ofWord_lane (h : w.aligned addr) (word : UInt32) :
    (Bank.ofWord word).read (of addr).val w = extract word addr w := by
  have hlane := (Bank.ofWord word).read_lane 0 h
  rwa [Nat.zero_add, Bank.read_ofWord] at hlane

theorem write_ofWord_lane (h : w.aligned addr) (word value : UInt32) :
    (Bank.ofWord word).write (of addr).val value w = Bank.ofWord (insert word value addr w) := by
  have hlane := (Bank.ofWord word).read_write_lane (by decide : 0 + 4 ≤ 4) value h
  rw [Nat.zero_add, Bank.read_ofWord] at hlane
  rw [← hlane, Bank.ofWord_read]

theorem extract_insert (h : w.aligned addr) (word value : UInt32) :
    (extract (insert word value addr w) addr w).toNat = value.toNat % 2 ^ (8 * w.bytes) := by
  have hfits := fits_of_aligned h
  apply Nat.eq_of_testBit_eq
  intro i
  rw [Nat.testBit_mod_two_pow]
  refine (bit_extract h _ i).trans ?_
  by_cases hi : i < 8 * w.bytes
  · have hindex : 8 * (of addr).val + i - 8 * (of addr).val = i := by omega
    rw [bit_insert h _ _ (by omega), if_pos (by omega), hindex]
    rfl
  · rw [decide_eq_false hi, Bool.false_and, Bool.false_and]

theorem insert_extract (h : w.aligned addr) (word : UInt32) :
    insert word (extract word addr w) addr w = word := by
  apply Word.eq_of_bit
  intro i hi
  rw [bit_insert h _ _ hi]
  split
  · have hin : i - 8 * (of addr).val < 8 * w.bytes := by omega
    have hindex : 8 * (of addr).val + (i - 8 * (of addr).val) = i := by omega
    rw [bit_extract h, decide_eq_true hin, Bool.true_and, hindex]
  · rfl

theorem insert_and_not_mask (word value addr : UInt32) (w : Width) :
    insert word value addr w &&& ~~~mask addr w = word &&& ~~~mask addr w := by
  apply Word.eq_of_bit
  intro i hi
  rw [Word.bit_and, Word.bit_and, Word.bit_not _ hi, bit_insert_mask _ _ _ _ hi]
  cases Word.bit (mask addr w) i <;> simp

theorem insert_comm {other : UInt32} {v : Width} (h : mask addr w &&& mask other v = 0)
    (word x y : UInt32) :
    insert (insert word x addr w) y other v = insert (insert word y other v) x addr w := by
  apply Word.eq_of_bit
  intro i hi
  -- at most one of the lanes covers the bit
  have hapart := congrArg (Word.bit · i) h
  simp only [Word.bit_and] at hapart
  rw [bit_insert_mask _ _ _ _ hi, bit_insert_mask _ _ _ _ hi, bit_insert_mask _ _ _ _ hi,
    bit_insert_mask _ _ _ _ hi]
  have hzero : Word.bit 0 i = false := Nat.zero_testBit i
  rw [hzero, Bool.and_eq_false_iff] at hapart
  obtain hout | hout := hapart <;> simp [hout]

/-- The lane at an address, against the bytes of a word from that offset on. -/
structure Agrees (addr : UInt32) (w : Width) (word value : UInt32) : Prop where
  /-- To write into the bytes of a word gives the bytes of the word with the lane put in. -/
  write : (Bank.ofWord word).write (of addr).val value w = Bank.ofWord (insert word value addr w)
  read : (Bank.ofWord word).read (of addr).val w = extract word addr w
  /-- A lane holds as much of a value as fits. -/
  holds : (extract (insert word value addr w) addr w).toNat = value.toNat % 2 ^ (8 * w.bytes)
  same : insert word (extract word addr w) addr w = word
  outside : insert word value addr w &&& ~~~mask addr w = word &&& ~~~mask addr w
  /-- It does not matter which of two lanes apart is put in first. -/
  apart : ∀ other v value', mask addr w &&& mask other v = 0 →
    insert (insert word value addr w) value' other v = insert (insert word value' other v) value addr w

/-- The lane of every aligned access agrees with the bytes of the word. -/
theorem agrees_with_bytes (h : w.aligned addr) (word value : UInt32) : Agrees addr w word value where
  write := write_ofWord_lane h word value
  read := read_ofWord_lane h word
  holds := extract_insert h word value
  same := insert_extract h word
  outside := insert_and_not_mask word value addr w
  apart _ _ value' hapart := insert_comm hapart word value value'

/-- The upper half of a word, and a byte below it. -/
theorem agrees_with_bytes_upper : Width.half.aligned 0x1002 ∧
    (Bank.ofWord 0x11223344).write 2 0xaabbccdd .half = Bank.ofWord 0xccdd3344 ∧
    (Bank.ofWord 0x11223344).read 2 .half = 0x1122 ∧
    insert (insert 0x11223344 0xaabbccdd 0x1002 .half) 0x55 0x1001 .byte = 0xccdd5544 := by
  have haligned : Width.half.aligned 0x1002 := by decide
  have h : Agrees 0x1002 .half 0x11223344 0xaabbccdd := agrees_with_bytes haligned _ _
  refine ⟨haligned, h.write.trans (congrArg Bank.ofWord ?_), h.read.trans ?_,
    (h.apart 0x1001 .byte 0x55 ?_).trans ?_⟩
  · decide
  · decide
  · decide
  · decide

end Lane
end R3000
