import Mathlib.Algebra.Group.Nat.Defs
import R3000.Instruction.Decode
import R3000.Proofs.WordBits

/-! # Instructions and the words that they are read from

No operation has two places in the tables, and none is in both of them, so that an operation belongs to one
opcode. The format of an instruction keeps what lies below the opcode. So the word is put together again from
the instruction, and two words that encode the same one are equal. -/
namespace R3000

namespace Word
variable (w : UInt32) {lo n i : Nat}

/-- The bits that are cut out of a word, right-aligned. -/
theorem bit_cut (lo : Nat) (hn : n ≤ 32) (i : Nat) :
    bit (UInt32.ofNat ((w.toNat >>> lo) % 2 ^ n)) i = (decide (i < n) && bit w (lo + i)) := by
  have hfits : (w.toNat >>> lo) % 2 ^ n < 2 ^ 32 :=
    Nat.lt_of_lt_of_le (Nat.mod_lt _ (Nat.two_pow_pos n)) (Nat.pow_le_pow_right (by decide) hn)
  simp only [bit]
  rw [UInt32.toNat_ofNat', Nat.mod_eq_of_lt hfits, Nat.testBit_mod_two_pow, Nat.testBit_shiftRight]

/-- Bits that are cut out of a word and put back in their place. -/
theorem bit_cut_shiftLeft (hlo : lo < 32) (hn : n ≤ 32) (hi : i < 32) :
    bit (UInt32.ofNat ((w.toNat >>> lo) % 2 ^ n) <<< UInt32.ofNat lo) i =
      (decide (lo ≤ i ∧ i < lo + n) && bit w i) := by
  rw [bit_shiftLeft _ hlo hi, bit_cut w lo hn]
  by_cases h : lo ≤ i
  · have hindex : lo + (i - lo) = i := by omega
    have hend : i - lo < n ↔ i < lo + n := by omega
    simp [h, hindex, hend]
  · simp [h]

theorem bit_field5 (hlo : lo < 32) (hi : i < 32) :
    bit (UInt32.ofNat (field5 w lo) <<< UInt32.ofNat lo) i =
      (decide (lo ≤ i ∧ i < lo + 5) && bit w i) :=
  bit_cut_shiftLeft w (n := 5) hlo (by decide) hi

theorem bit_funct (i : Nat) : bit (UInt32.ofNat (funct w)) i = (decide (i < 6) && bit w i) := by
  have hcut := bit_cut w 0 (by decide : 6 ≤ 32) i
  rwa [Nat.zero_add] at hcut

theorem bit_opcode (hi : i < 32) :
    bit (UInt32.ofNat (opcode w) <<< 26) i = (decide (26 ≤ i) && bit w i) := by
  refine (bit_cut_shiftLeft w (by decide : 26 < 32) (by decide : 6 ≤ 32) hi).trans ?_
  rw [decide_eq_decide.mpr (and_iff_left hi)]

theorem bit_toUInt16 (i : Nat) : bit w.toUInt16.toUInt32 i = (decide (i < 16) && bit w i) := by
  simp only [bit]
  rw [UInt16.toNat_toUInt32, UInt32.toNat_toUInt16, Nat.testBit_mod_two_pow]

theorem bit_below_opcode (hi : i < 32) : bit (w &&& 0x03ffffff) i = (decide (i < 26) && bit w i) := by
  have hmask : ∀ i < 32, bit 0x03ffffff i = decide (i < 26) := by decide
  rw [bit_and, hmask i hi, Bool.and_comm]

/-- A word is its opcode and what lies below it. -/
theorem opcode_or_below : UInt32.ofNat (opcode w) <<< 26 ||| (w &&& 0x03ffffff) = w := by
  apply eq_of_bit
  intro i hi
  rw [bit_or, bit_opcode w hi, bit_below_opcode w hi]
  by_cases h : i < 26
  · have hhigh : ¬26 ≤ i := by omega
    simp [h, hhigh]
  · have hhigh : 26 ≤ i := by omega
    simp [h, hhigh]

end Word

/-- What the format keeps of a word, put together again. -/
def Immediate.code (f : Immediate) : UInt32 :=
  UInt32.ofNat f.rs <<< 21 ||| UInt32.ofNat f.rt <<< 16 ||| f.imm.toUInt32

theorem Immediate.code_decode (w : UInt32) : (decode w).code = w &&& 0x03ffffff := by
  apply Word.eq_of_bit
  intro i hi
  have hrs : Word.bit (UInt32.ofNat (Word.field5 w 21) <<< 21) i = _ := Word.bit_field5 w (by decide) hi
  have hrt : Word.bit (UInt32.ofNat (Word.field5 w 16) <<< 16) i = _ := Word.bit_field5 w (by decide) hi
  simp only [code, decode, Word.bit_or]
  rw [hrs, hrt, Word.bit_toUInt16, Word.bit_below_opcode w hi]
  simp only [← Bool.and_or_distrib_right, ← Bool.decide_or]
  exact congrArg (· && _) (decide_eq_decide.mpr (by omega))

theorem Register.code_decode (w : UInt32) : (decode w).code = w &&& 0x03ffffff := by
  apply Word.eq_of_bit
  intro i hi
  have hrs : Word.bit (UInt32.ofNat (Word.field5 w 21) <<< 21) i = _ := Word.bit_field5 w (by decide) hi
  have hrt : Word.bit (UInt32.ofNat (Word.field5 w 16) <<< 16) i = _ := Word.bit_field5 w (by decide) hi
  have hrd : Word.bit (UInt32.ofNat (Word.field5 w 11) <<< 11) i = _ := Word.bit_field5 w (by decide) hi
  have hshamt : Word.bit (UInt32.ofNat (Word.field5 w 6) <<< 6) i = _ := Word.bit_field5 w (by decide) hi
  simp only [code, decode, Word.bit_or]
  rw [hrs, hrt, hrd, hshamt, Word.bit_funct, Word.bit_below_opcode w hi]
  simp only [← Bool.and_or_distrib_right, ← Bool.decide_or]
  exact congrArg (· && _) (decide_eq_decide.mpr (by omega))

/-- The opcode of an operation: its place in the table, and zero for those that the low six bits choose. -/
def Kind.opcode (k : Kind) : Nat := ((List.range 64).find? fun n => Kind.ofOpcode? n = some k).getD 0

/-- No operation comes twice in the table of the opcodes. -/
theorem Kind.opcode_of_ofOpcode? : ∀ (n : Fin 64) {k : Kind}, ofOpcode? n = some k → k.opcode = n := by
  have htable : ∀ n : Fin 64, ∀ k ∈ ofOpcode? n, k.opcode = n := by decide +kernel
  exact fun n _ h => htable n _ h

/-- No operation of the other table is in that of the opcodes. -/
theorem RegisterOp.opcode_of_ofFunct? :
    ∀ (n : Fin 64) {op : RegisterOp}, ofFunct? n = some op → (Kind.register op).opcode = 0 := by
  have htable : ∀ n : Fin 64, ∀ op ∈ ofFunct? n, (Kind.register op).opcode = 0 := by decide +kernel
  exact fun n _ h => htable n _ h

theorem Kind.opcode_of {w : UInt32} {k : Kind} (h : Kind.of? w = some k) : k.opcode = Word.opcode w := by
  simp only [Kind.of?] at h
  split at h
  · rename_i hzero
    obtain ⟨op, hop, rfl⟩ := Option.map_eq_some_iff.mp h
    rw [hzero]
    exact RegisterOp.opcode_of_ofFunct? _ hop
  · exact Kind.opcode_of_ofOpcode? _ h

namespace Instruction
variable {w : UInt32} {i : Instruction}

/-- The bits below the opcode. -/
def code : Instruction → UInt32
  | .immediate _ f => f.code
  | .jump _ f => f.target
  | .register _ f => f.code

def encode (i : Instruction) : UInt32 := UInt32.ofNat i.kind.opcode <<< 26 ||| i.code

theorem code_of_decode (h : decode w = some i) : i.code = w &&& 0x03ffffff := by
  simp only [decode] at h
  obtain ⟨k, -, rfl⟩ := Option.map_eq_some_iff.mp h
  cases k with
  | immediate op => exact Immediate.code_decode w
  | jump op => rfl
  | register op => exact Register.code_decode w

theorem encode_of_decode (h : decode w = some i) : i.encode = w := by
  have hkind : Kind.of? w = some i.kind := by
    rw [← map_kind_decode, h]
    rfl
  simp only [encode]
  rw [Kind.opcode_of hkind, code_of_decode h, Word.opcode_or_below]

/-- Words that encode the same instruction are equal, a word encodes one exactly where the tables have an
operation for it, and what lies below the opcode is told by the fields of any word in register format. -/
theorem decode_lossless (w : UInt32) :
    (∀ v i, decode v = some i → decode w = some i → v = w) ∧
    (decode w).map kind = Kind.of? w ∧
    (Register.decode w).code = w &&& 0x03ffffff ∧
    ∀ op f, decode w = some (.register op f) → f.code = w &&& 0x03ffffff :=
  ⟨fun _ _ hv hw => (encode_of_decode hv).symm.trans (encode_of_decode hw), map_kind_decode w,
    Register.code_decode w, fun _ _ h => code_of_decode h⟩

/-- A command of the geometry engine is told from the next one. -/
theorem decode_lossless_command :
    decode 0x4a180001 = some (.register (.cop .geometry) ⟨16, 24, 0, 0, 1⟩) ∧
    decode 0x4a180002 ≠ some (.register (.cop .geometry) ⟨16, 24, 0, 0, 1⟩) ∧
    Register.code ⟨16, 24, 0, 0, 1⟩ = 0x02180001 := by
  have hdecode : decode 0x4a180001 = some (.register (.cop .geometry) ⟨16, 24, 0, 0, 1⟩) := by decide
  obtain ⟨hinjective, -, -, hcode⟩ := decode_lossless 0x4a180001
  refine ⟨hdecode, fun hother => ?_, (hcode _ _ hdecode).trans (by decide)⟩
  exact absurd (hinjective _ _ hother hdecode) (by decide)

end Instruction
end R3000
