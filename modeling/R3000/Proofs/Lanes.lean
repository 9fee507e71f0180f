import R3000.Memory
import R3000.Proofs.SameWord
import R3000.Proofs.WordBits

/-! # Lanes of words and bytes of memory

An aligned access covers whole bytes of one word. So what memory answers to it is a lane of that word, and
a write replaces the lane and leaves every other word alone. -/
namespace R3000

namespace Lane
variable {addr : UInt32} {w : Width} {i : Nat}

theorem fits_of_aligned (h : w.aligned addr) : 8 * (of addr).val + 8 * w.bytes ≤ 32 := by
  rw [Width.aligned_iff] at h
  simp only [of]
  cases w <;> simp only [Width.bytes] at * <;> omega

theorem shift_eq (h : w.aligned addr) : shift addr w = UInt32.ofNat (8 * (of addr).val) := by
  rw [Width.aligned_iff] at h
  have hlow : addr.toNat &&& 3 = addr.toNat % 4 := Nat.and_two_pow_sub_one_eq_mod _ 2
  have hlane : (8 * (addr.toNat % 4)) % 2 ^ 32 = 8 * (addr.toNat % 4) := Nat.mod_eq_of_lt (by omega)
  rw [← UInt32.toNat_inj, UInt32.toNat_ofNat']
  simp only [of]
  rw [hlane]
  cases w with
  | byte =>
    simp only [shift, UInt32.toNat_mul, UInt32.toNat_and, UInt32.reduceToNat, hlow]
    omega
  | half =>
    have heven : addr.toNat &&& 2 = addr.toNat % 4 := by
      simp only [Width.bytes] at h
      rw [show 2 = 3 &&& 2 from rfl, ← Nat.and_assoc, hlow]
      obtain h0 | h2 : addr.toNat % 4 = 0 ∨ addr.toNat % 4 = 2 := by omega
      · rw [h0]
        rfl
      · rw [h2]
        rfl
    simp only [shift, UInt32.toNat_mul, UInt32.toNat_and, UInt32.reduceToNat, heven]
    omega
  | word =>
    simp only [Width.bytes] at h
    simp [shift, h]

/-- A lane covers as many bits as its width has, from its first byte on. -/
theorem bit_mask (h : w.aligned addr) (hi : i < 32) : Word.bit (mask addr w) i =
    decide (8 * (of addr).val ≤ i ∧ i < 8 * (of addr).val + 8 * w.bytes) := by
  have hfits := fits_of_aligned h
  have hpos := w.bytes_pos
  have hshifted {ones : UInt32} {n : Nat} (hones : ∀ j < 32, Word.bit ones j = decide (j < n)) :
      Word.bit (ones <<< UInt32.ofNat (8 * (of addr).val)) i =
        decide (8 * (of addr).val ≤ i ∧ i < 8 * (of addr).val + n) := by
    rw [Word.bit_shiftLeft _ (by omega) hi, hones _ (by omega), ← Bool.decide_and]
    exact decide_eq_decide.mpr (by omega)
  cases w with
  | byte =>
    simp only [mask, shift_eq h]
    exact hshifted (n := 8) (by decide)
  | half =>
    simp only [mask, shift_eq h]
    exact hshifted (n := 16) (by decide)
  | word =>
    have hall : ∀ j < 32, Word.bit 0xffffffff j = true := by decide
    simp only [Width.bytes] at hfits
    have hin : 8 * (of addr).val ≤ i ∧ i < 8 * (of addr).val + 8 * Width.word.bytes := by
      simp only [Width.bytes]
      omega
    simp only [mask, hall i hi, hin, and_self, decide_true]

theorem bit_extract (h : w.aligned addr) (word : UInt32) (i : Nat) :
    Word.bit (extract word addr w) i =
      (decide (i < 8 * w.bytes) && Word.bit word (8 * (of addr).val + i)) := by
  have hfits := fits_of_aligned h
  have hpos := w.bytes_pos
  simp only [extract]
  rw [shift_eq h, Word.bit_shiftRight _ (by omega), Word.bit_and]
  by_cases hi : i < 8 * w.bytes
  · rw [bit_mask h (by omega), Bool.and_comm]
    simp [hi]
  · by_cases h32 : 8 * (of addr).val + i < 32
    · rw [bit_mask h h32]
      simp [hi]
    · have hp : 2 ^ 32 ≤ 2 ^ (8 * (of addr).val + i) :=
        Nat.pow_le_pow_right (by decide) (Nat.not_lt.mp h32)
      have hbit : Word.bit word (8 * (of addr).val + i) = false :=
        Nat.testBit_lt_two_pow (Nat.lt_of_lt_of_le word.toNat_lt hp)
      simp [hi, hbit]

/-- The lane of a whole word is the word. -/
theorem extract_word (h : Width.word.aligned addr) (word : UInt32) : extract word addr .word = word := by
  have hfits := fits_of_aligned h
  simp only [Width.bytes] at hfits
  apply Word.eq_of_bit
  intro i hi
  have hlane : 8 * (of addr).val + i = i := by omega
  rw [bit_extract h, hlane]
  simp [Width.bytes, hi]

/-- A lane put into a word, bit by bit. -/
theorem bit_insert_mask (word value addr : UInt32) (w : Width) (hi : i < 32) :
    Word.bit (insert word value addr w) i =
      if Word.bit (mask addr w) i then Word.bit (value <<< shift addr w) i else Word.bit word i := by
  simp only [insert, Word.bit_or, Word.bit_and, Word.bit_not _ hi]
  cases Word.bit (mask addr w) i <;> simp

theorem bit_insert (h : w.aligned addr) (word value : UInt32) (hi : i < 32) :
    Word.bit (insert word value addr w) i =
      if 8 * (of addr).val ≤ i ∧ i < 8 * (of addr).val + 8 * w.bytes then
        Word.bit value (i - 8 * (of addr).val)
      else Word.bit word i := by
  have hfits := fits_of_aligned h
  have hpos := w.bytes_pos
  rw [bit_insert_mask _ _ _ _ hi, bit_mask h hi, shift_eq h, Word.bit_shiftLeft _ (by omega) hi]
  by_cases hin : 8 * (of addr).val ≤ i ∧ i < 8 * (of addr).val + 8 * w.bytes
  · simp [hin]
  · simp [hin]

end Lane

namespace Word

theorem bit_toUInt32 (x : UInt8) (i : Nat) : bit x.toUInt32 i = x.toNat.testBit i := by
  simp only [bit, UInt8.toNat_toUInt32]

theorem testBit_toUInt8 (x : UInt32) (i : Nat) :
    x.toUInt8.toNat.testBit i = (decide (i < 8) && bit x i) := by
  rw [UInt32.toNat_toUInt8, Nat.testBit_mod_two_pow]
  rfl

end Word

namespace Bank
variable {n : Nat}

/-- The byte of a word that a bit belongs to. -/
theorem testBit_lane (x : UInt8) (i d : Nat) : (decide (8 * d ≤ i) && x.toNat.testBit (i - 8 * d)) =
    (decide (i / 8 = d) && x.toNat.testBit (i % 8)) := by
  by_cases hd : i / 8 = d
  · have hle : 8 * d ≤ i := by omega
    have hbit : i - 8 * d = i % 8 := by omega
    simp [hd, hle, hbit]
  · by_cases hle : 8 * d ≤ i
    · have hhigh : x.toNat.testBit (i - 8 * d) = false := Nat.testBit_lt_two_pow
        (Nat.lt_of_lt_of_le x.toNat_lt (Nat.pow_le_pow_right (by decide) (by omega)))
      simp [hd, hhigh]
    · simp [hd, hle]

/-- What is read is made of the bytes that the access covers. -/
theorem bit_read (b : Bank n) (offset : Nat) (w : Width) {i : Nat} (hi : i < 32) :
    Word.bit (b.read offset w) i =
      (decide (i < 8 * w.bytes) && (b.byte (offset + i / 8)).toNat.testBit (i % 8)) := by
  have hlane {d : Nat} {k : UInt32} (hk : k = UInt32.ofNat (8 * d)) (hd : d < 4) (x : UInt8) :
      Word.bit (x.toUInt32 <<< k) i = (decide (i / 8 = d) && x.toNat.testBit (i % 8)) := by
    rw [hk, Word.bit_shiftLeft _ (by omega) hi, Word.bit_toUInt32, testBit_lane]
  have h0 (x : UInt8) : Word.bit x.toUInt32 i = (decide (i / 8 = 0) && x.toNat.testBit (i % 8)) := by
    rw [← testBit_lane x i 0, Word.bit_toUInt32]
    simp
  have hwidth : decide (i < 8 * w.bytes) = decide (i / 8 < w.bytes) := decide_eq_decide.mpr (by omega)
  have h1 := hlane (d := 1) (k := 8) rfl (by decide)
  have h2 := hlane (d := 2) (k := 16) rfl (by decide)
  have h3 := hlane (d := 3) (k := 24) rfl (by decide)
  rw [hwidth]
  obtain hd | hd | hd | hd : i / 8 = 0 ∨ i / 8 = 1 ∨ i / 8 = 2 ∨ i / 8 = 3 := by omega
  all_goals cases w <;> simp [read, h0, h1, h2, h3, hd, Width.bytes]

/-- A write replaces the bytes that the access covers. -/
theorem byte_write (b : Bank n) (offset : Nat) (value : UInt32) (w : Width) (j : Nat) :
    (b.write offset value w).byte j =
      if offset ≤ j ∧ j < offset + w.bytes ∧ j < n then
        (value >>> UInt32.ofNat (8 * (j - offset))).toUInt8
      else b.byte j := by
  have hshift : UInt32.ofNat 8 = 8 ∧ UInt32.ofNat 16 = 16 ∧ UInt32.ofNat 24 = 24 := ⟨rfl, rfl, rfl⟩
  by_cases hin : offset ≤ j ∧ j < offset + 4 ∧ j < n
  · obtain ⟨d, rfl⟩ := Nat.exists_eq_add_of_le hin.1
    rw [Nat.add_sub_cancel_left]
    obtain rfl | rfl | rfl | rfl : d = 0 ∨ d = 1 ∨ d = 2 ∨ d = 3 := by omega
    all_goals cases w <;> simp [write, byte_setByte, Width.bytes, hin.2.2, hshift]
  · have hfirst : ¬(j = offset ∧ offset < n) := by omega
    have hout (k : Nat) (hk : k < 4) : ¬(j = offset + k ∧ offset + k < n) := by omega
    have hbytes : w.bytes ≤ 4 := by cases w <;> decide
    rw [if_neg (by omega)]
    cases w <;> simp only [write, byte_setByte, if_neg hfirst, if_neg (hout 1 (by decide)),
      if_neg (hout 2 (by decide)), if_neg (hout 3 (by decide))]

section Lane
variable (b : Bank n) {w : Width} {addr : UInt32}

/-- An aligned access sees a lane of the word that lies around it. -/
theorem read_lane (offset : Nat) (h : w.aligned addr) :
    b.read (offset + (Lane.of addr).val) w = Lane.extract (b.read offset .word) addr w := by
  have hfits := Lane.fits_of_aligned h
  apply Word.eq_of_bit
  intro i hi
  rw [bit_read _ _ _ hi, Lane.bit_extract h]
  by_cases hw : i < 8 * w.bytes
  · rw [bit_read _ _ _ (by omega)]
    have hbyte : offset + (Lane.of addr).val + i / 8 = offset + (8 * (Lane.of addr).val + i) / 8 := by
      omega
    have hbit : (8 * (Lane.of addr).val + i) % 8 = i % 8 := by omega
    have hlast : 8 * (Lane.of addr).val + i < 8 * Width.word.bytes := by
      simp only [Width.bytes]
      omega
    simp [hw, hbyte, hbit, hlast]
  · simp [hw]

/-- An aligned write replaces a lane of the word that lies around it. -/
theorem read_write_lane {offset : Nat} (hend : offset + 4 ≤ n) (value : UInt32) (h : w.aligned addr) :
    (b.write (offset + (Lane.of addr).val) value w).read offset .word =
      Lane.insert (b.read offset .word) value addr w := by
  have hfits := Lane.fits_of_aligned h
  apply Word.eq_of_bit
  intro i hi
  have hlast : i < 8 * Width.word.bytes := hi
  rw [bit_read _ _ _ hi, byte_write, Lane.bit_insert h _ _ hi, bit_read _ _ _ hi]
  by_cases hin : 8 * (Lane.of addr).val ≤ i ∧ i < 8 * (Lane.of addr).val + 8 * w.bytes
  · rw [if_pos hin, if_pos (by omega), Word.testBit_toUInt8, Word.bit_shiftRight _ (by omega)]
    have hbit : 8 * (offset + i / 8 - (offset + (Lane.of addr).val)) + i % 8 =
        i - 8 * (Lane.of addr).val := by omega
    have hlow : i % 8 < 8 := by omega
    rw [hbit]
    simp [hlast, hlow]
  · rw [if_neg hin, if_neg (by omega)]

/-- A write beside a word leaves it alone. -/
theorem read_write_beside {offset j : Nat} (hbeside : j + 4 ≤ offset ∨ offset + w.bytes ≤ j)
    (value : UInt32) : (b.write offset value w).read j .word = b.read j .word := by
  apply Word.eq_of_bit
  intro i hi
  rw [bit_read _ _ _ hi, bit_read _ _ _ hi, byte_write, if_neg (by omega)]

end Lane

end Bank

namespace MainRam
variable {w : Width} {addr : UInt32}

/-- The lane of an aligned access lies in the word that it falls into. -/
theorem offset_eq_lane (addr : UInt32) : addr.toNat % ramSize = wordOffset addr + (Lane.of addr).val := by
  simp only [wordOffset, Lane.of, ramSize]
  omega

/-- An aligned access to RAM sees a lane of the word that it falls into. -/
theorem read_eq_extract (ram : MainRam) (h : w.aligned addr) :
    ram.read (addr.toNat % ramSize) w = Lane.extract (ram.word addr) addr w := by
  rw [offset_eq_lane]
  exact ram.read_lane _ h

/-- An aligned write replaces a lane of the word that it falls into, and no other word changes. -/
theorem word_write (ram : MainRam) (value : UInt32) (h : w.aligned addr) (a : UInt32) :
    word (ram.write (addr.toNat % ramSize) value w) a =
      if wordOffset a = wordOffset addr then Lane.insert (ram.word a) value addr w
      else ram.word a := by
  have hfits := Lane.fits_of_aligned h
  have hword : ∀ a, wordOffset a + 4 ≤ ramSize ∧ wordOffset a % 4 = 0 := fun a => by
    simp only [wordOffset, ramSize]
    omega
  have ha := hword a
  have haddr := hword addr
  simp only [word]
  rw [offset_eq_lane]
  split
  · rename_i hsame
    rw [hsame]
    exact ram.read_write_lane haddr.1 value h
  · exact ram.read_write_beside (by omega) value

end MainRam
end R3000
