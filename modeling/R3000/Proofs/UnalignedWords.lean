import R3000.Machine.Execute
import R3000.Proofs.CachedWords

/-! # Words at unaligned addresses

The four bytes at an address lie in one word or across two. The lanes of the first word from that of the
address on hold those behind the address, and the lanes of the last word up to that of the last byte hold
those before it; every byte is in one of these halves, and all are in both where the address is aligned. -/
namespace R3000

namespace Word

def byte (w : UInt32) (k : Nat) : UInt8 := (w >>> UInt32.ofNat (8 * k)).toUInt8

theorem testBit_byte (w : UInt32) {k : Nat} (hk : k < 4) (i : Nat) :
    (byte w k).toNat.testBit i = (decide (i < 8) && bit w (8 * k + i)) := by
  rw [byte, testBit_toUInt8, bit_shiftRight _ (by omega)]

theorem byte_eq_byte {w v : UInt32} {k l : Nat} (hk : k < 4) (hl : l < 4)
    (h : ∀ i < 8, bit w (8 * k + i) = bit v (8 * l + i)) : byte w k = byte v l := by
  rw [← UInt8.toNat_inj]
  apply Nat.eq_of_testBit_eq
  intro i
  rw [testBit_byte w hk, testBit_byte v hl]
  by_cases hi : i < 8
  · rw [h i hi]
  · simp [hi]

theorem bit_of_le (w : UInt32) {i : Nat} (hi : 32 ≤ i) : bit w i = false :=
  Nat.testBit_lt_two_pow (Nat.lt_of_lt_of_le w.toNat_lt (Nat.pow_le_pow_right (by decide) hi))

/-- A word is made of its bytes. -/
theorem eq_of_byte {w v : UInt32} (h : ∀ k < 4, byte w k = byte v k) : w = v := by
  apply eq_of_bit
  intro i hi
  have hbyte := congrArg (·.toNat.testBit (i % 8)) (h (i / 8) (by omega))
  have hlow : i % 8 < 8 := by omega
  have hindex : 8 * (i / 8) + i % 8 = i := by omega
  simpa [testBit_byte _ (show i / 8 < 4 by omega), hlow, hindex] using hbyte

end Word

/-- The bits above a lane. -/
theorem sub_lane : ∀ lane : Fin 4, 24 - UInt32.ofNat (8 * lane) = UInt32.ofNat (24 - 8 * lane) := by
  decide

section Merge
variable (current word : UInt32) (lane : Fin 4) {k : Nat}

/-- The bytes of a word from a lane on go to the low end of the register. -/
theorem byte_mergeRight (hk : k < 4) : Word.byte (mergeRight current word lane) k =
    if k + lane < 4 then Word.byte word (k + lane) else Word.byte current k := by
  have hmask : ∀ lane : Fin 4, ∀ i < 32,
      Word.bit (0xffffff00 <<< (24 - UInt32.ofNat (8 * lane))) i = decide (32 - 8 * lane.val ≤ i) := by
    decide
  have hbit : ∀ i < 32, Word.bit (mergeRight current word lane) i =
      (Word.bit current i && decide (32 - 8 * lane.val ≤ i) || Word.bit word (8 * lane.val + i)) := by
    intro i hi
    simp only [mergeRight]
    rw [Word.bit_or, Word.bit_and, hmask lane i hi, Word.bit_shiftRight _ (by omega)]
  split
  · refine Word.byte_eq_byte hk ‹_› fun i hi => ?_
    have hout : ¬32 - 8 * lane.val ≤ 8 * k + i := by omega
    have hindex : 8 * lane.val + (8 * k + i) = 8 * (k + lane) + i := by omega
    rw [hbit _ (by omega), decide_eq_false hout, Bool.and_false, Bool.false_or, hindex]
  · refine Word.byte_eq_byte hk hk fun i hi => ?_
    have hin : 32 - 8 * lane.val ≤ 8 * k + i := by omega
    have hend : Word.bit word (8 * lane.val + (8 * k + i)) = false := Word.bit_of_le _ (by omega)
    rw [hbit _ (by omega), decide_eq_true hin, Bool.and_true, hend, Bool.or_false]

/-- The bytes of a word up to a lane go to the high end of the register. -/
theorem byte_mergeLeft (hk : k < 4) : Word.byte (mergeLeft current word lane) k =
    if 3 ≤ k + lane then Word.byte word (k + lane - 3) else Word.byte current k := by
  have hmask : ∀ lane : Fin 4, ∀ i < 32,
      Word.bit (0x00ffffff >>> UInt32.ofNat (8 * lane)) i = decide (i < 24 - 8 * lane.val) := by
    decide
  have hbit : ∀ i < 32, Word.bit (mergeLeft current word lane) i =
      (Word.bit current i && decide (i < 24 - 8 * lane.val) ||
        decide (24 - 8 * lane.val ≤ i) && Word.bit word (i - (24 - 8 * lane.val))) := by
    intro i hi
    simp only [mergeLeft]
    rw [Word.bit_or, Word.bit_and, hmask lane i hi, sub_lane, Word.bit_shiftLeft _ (by omega) hi]
  split
  · refine Word.byte_eq_byte hk (by omega) fun i hi => ?_
    have hout : ¬8 * k + i < 24 - 8 * lane.val := by omega
    have hin : 24 - 8 * lane.val ≤ 8 * k + i := by omega
    have hindex : 8 * k + i - (24 - 8 * lane.val) = 8 * (k + lane - 3) + i := by omega
    rw [hbit _ (by omega), decide_eq_false hout, Bool.and_false, Bool.false_or, decide_eq_true hin,
      Bool.true_and, hindex]
  · refine Word.byte_eq_byte hk hk fun i hi => ?_
    have hin : 8 * k + i < 24 - 8 * lane.val := by omega
    have hout : ¬24 - 8 * lane.val ≤ 8 * k + i := by omega
    rw [hbit _ (by omega), decide_eq_true hin, Bool.and_true, decide_eq_false hout, Bool.false_and,
      Bool.or_false]

end Merge

section Spread
variable (v : UInt32) (lane : Fin 4) {d : Nat}

/-- What is stored from a lane on is the low end of a word. -/
theorem Word.byte_shiftLeft (hd : d < 4) (h : lane ≤ d) :
    byte (v <<< UInt32.ofNat (8 * lane)) d = byte v (d - lane) := by
  refine byte_eq_byte hd (by omega) fun i hi => ?_
  have hin : 8 * lane.val ≤ 8 * d + i := by omega
  have hindex : 8 * d + i - 8 * lane.val = 8 * (d - lane) + i := by omega
  rw [bit_shiftLeft _ (by omega) (by omega), decide_eq_true hin, Bool.true_and, hindex]

/-- What is stored up to a lane is the high end of a word. -/
theorem Word.byte_shiftRight (h : d ≤ lane) :
    byte (v >>> (24 - UInt32.ofNat (8 * lane))) d = byte v (d + 3 - lane) := by
  refine byte_eq_byte (by omega) (by omega) fun i hi => ?_
  have hindex : 24 - 8 * lane.val + (8 * d + i) = 8 * (d + 3 - lane) + i := by omega
  rw [sub_lane, bit_shiftRight _ (by omega), hindex]

end Spread

/-- The byte of a lane of a word whose low end has been shifted out. -/
theorem Word.byte_shiftRight_bytes (w : UInt32) {l k : Nat} (h : l + k < 4) :
    byte (w >>> UInt32.ofNat (8 * l)) k = byte w (l + k) := by
  refine byte_eq_byte (by omega) h fun i hi => ?_
  have hindex : 8 * l + (8 * k + i) = 8 * (l + k) + i := by omega
  rw [bit_shiftRight _ (by omega), hindex]

namespace Lane

def Covers (pieces : List (UInt32 × Width)) (d : Nat) : Prop :=
  ∃ p ∈ pieces, p.1.toNat ≤ d ∧ d < p.1.toNat + p.2.bytes

instance (pieces : List (UInt32 × Width)) (d : Nat) : Decidable (Covers pieces d) :=
  inferInstanceAs (Decidable (∃ _ ∈ _, _))

theorem covers_onward : ∀ l : Fin 4, ∀ d < 4, Covers (onward l) d ↔ l.val ≤ d := by decide

theorem covers_upTo : ∀ l : Fin 4, ∀ d < 4, Covers (upTo l) d ↔ d ≤ l.val := by decide

end Lane

def ramOffset (vaddr : UInt32) : Nat := (translate vaddr).toNat % ramSize

section Offsets
variable {a v : UInt32} {k : Nat}

theorem toNat_translate_mod (v : UInt32) : (translate v).toNat % 4 = v.toNat % 4 := by
  have hlow : (v &&& 0x1fffffff).toNat = v.toNat % 0x20000000 := by
    rw [UInt32.toNat_and]
    exact Nat.and_two_pow_sub_one_eq_mod _ 29
  simp only [translate]
  split
  · rfl
  · rw [hlow]
    omega

theorem toNat_add_ofNat (a : UInt32) (hk : k < 4) :
    (a + UInt32.ofNat k).toNat = (a.toNat + k) % 0x100000000 := by
  have hsmall : (UInt32.ofNat k).toNat = k := Nat.mod_eq_of_lt (by omega)
  rw [UInt32.toNat_add, hsmall]

theorem ramOffset_eq (v : UInt32) :
    ramOffset v = MainRam.wordOffset (translate v) + (Lane.of v).val := by
  have hlow := toNat_translate_mod v
  simp only [ramOffset, MainRam.wordOffset, Lane.of, ramSize]
  omega

theorem wordOffset_translate (hb : Lane.base a = Lane.base v) :
    MainRam.wordOffset (translate a) = MainRam.wordOffset (translate v) := by
  rw [← MainRam.wordOffset_base, ← translate_base, hb, translate_base, MainRam.wordOffset_base]

/-- The bytes behind an address that are in its word. -/
theorem ramOffset_right (h : k + (Lane.of a).val < 4) :
    ramOffset (a + UInt32.ofNat k) = MainRam.wordOffset (translate a) + (k + Lane.of a) := by
  have hlt := a.toNat_lt
  have hsum := toNat_add_ofNat a (k := k) (by omega)
  simp only [Lane.of] at h
  have hbase : Lane.base (a + UInt32.ofNat k) = Lane.base a := by
    rw [← UInt32.toNat_inj, Lane.toNat_base, Lane.toNat_base, hsum]
    omega
  rw [ramOffset_eq, wordOffset_translate hbase]
  simp only [Lane.of]
  rw [hsum]
  omega

/-- The bytes behind an address that are in the word of the last of four. -/
theorem ramOffset_left (hk : k < 4) (h : 3 ≤ k + (Lane.of (a + 3)).val) : ramOffset (a + UInt32.ofNat k) =
    MainRam.wordOffset (translate (a + 3)) + (k + Lane.of (a + 3) - 3) := by
  have hlt := a.toNat_lt
  have hlast : (a + 3).toNat = (a.toNat + 3) % 0x100000000 := toNat_add_ofNat a (show 3 < 4 by decide)
  have hsum := toNat_add_ofNat a hk
  simp only [Lane.of] at h
  rw [hlast] at h
  have hbase : Lane.base (a + UInt32.ofNat k) = Lane.base (a + 3) := by
    rw [← UInt32.toNat_inj, Lane.toNat_base, Lane.toNat_base, hsum, hlast]
    omega
  rw [ramOffset_eq, wordOffset_translate hbase]
  simp only [Lane.of]
  rw [hsum, hlast]
  omega

theorem ramOffset_inj {l : Nat} (hk : k < 4) (hl : l < 4)
    (h : ramOffset (a + UInt32.ofNat k) = ramOffset (a + UInt32.ofNat l)) : k = l := by
  have hlow : ∀ k < 4, ramOffset (a + UInt32.ofNat k) % 4 = (a.toNat + k) % 4 := by
    intro k hk
    have htranslate := toNat_translate_mod (a + UInt32.ofNat k)
    rw [toNat_add_ofNat a hk] at htranslate
    simp only [ramOffset, ramSize]
    omega
  have hmod := congrArg (· % 4) h
  simp only [hlow k hk, hlow l hl] at hmod
  omega

/-- No byte is in neither half. -/
theorem halves (a : UInt32) (k : Nat) : k + (Lane.of a).val < 4 ∨ 3 ≤ k + (Lane.of (a + 3)).val := by
  have hlast : (a + 3).toNat = (a.toNat + 3) % 0x100000000 := toNat_add_ofNat a (show 3 < 4 by decide)
  simp only [Lane.of]
  rw [hlast]
  omega

end Offsets

namespace MainRam
variable {ram : MainRam} {a : UInt32} {k : Nat}

theorem byte_word (ram : MainRam) (addr : UInt32) {d : Nat} (hd : d < 4) :
    Word.byte (ram.word addr) d = ram.byte (wordOffset addr + d) := by
  rw [← UInt8.toNat_inj]
  apply Nat.eq_of_testBit_eq
  intro i
  rw [Word.testBit_byte _ hd]
  by_cases hi : i < 8
  · have hbyte : (8 * d + i) / 8 = d := by omega
    have hbit : (8 * d + i) % 8 = i := by omega
    have hin : 8 * d + i < 8 * Width.word.bytes := by
      simp only [Width.bytes]
      omega
    rw [word, Bank.bit_read _ _ _ (by omega), hbyte, hbit]
    simp [hi, hin]
  · have hend : (ram.byte (wordOffset addr + d)).toNat.testBit i = false := Nat.testBit_lt_two_pow
      (Nat.lt_of_lt_of_le (UInt8.toNat_lt _) (Nat.pow_le_pow_right (by decide) (by omega)))
    simp [hi, hend]

/-- The halves of what two loads merge, in either order. -/
theorem byte_merged (hk : k < 4) (current : UInt32) :
    Word.byte (mergeLeft (mergeRight current (ram.word (translate a)) (Lane.of a))
        (ram.word (translate (a + 3))) (Lane.of (a + 3))) k = ram.byte (ramOffset (a + UInt32.ofNat k)) ∧
      Word.byte (mergeRight (mergeLeft current (ram.word (translate (a + 3))) (Lane.of (a + 3)))
        (ram.word (translate a)) (Lane.of a)) k = ram.byte (ramOffset (a + UInt32.ofNat k)) := by
  have hright : k + (Lane.of a).val < 4 →
      Word.byte (ram.word (translate a)) (k + Lane.of a) = ram.byte (ramOffset (a + UInt32.ofNat k)) :=
    fun h => by rw [byte_word _ _ h, ramOffset_right h]
  have hleft : 3 ≤ k + (Lane.of (a + 3)).val → Word.byte (ram.word (translate (a + 3)))
      (k + Lane.of (a + 3) - 3) = ram.byte (ramOffset (a + UInt32.ofNat k)) :=
    fun h => by rw [byte_word _ _ (by omega), ramOffset_left hk h]
  rw [byte_mergeLeft _ _ _ hk, byte_mergeRight _ _ _ hk, byte_mergeRight _ _ _ hk, byte_mergeLeft _ _ _ hk]
  refine ⟨?_, ?_⟩
  · split
    · exact hleft ‹_›
    · have h := (halves a k).resolve_right ‹_›
      rw [if_pos h]
      exact hright h
  · split
    · exact hright ‹_›
    · have h := (halves a k).resolve_left ‹_›
      rw [if_pos h]
      exact hleft h

/-- Those of the four bytes at a virtual address that `part` selects have become those of a word, and no
other byte has changed. -/
structure Stores (part : Nat → Prop) (a v : UInt32) (ram ram' : MainRam) : Prop where
  stored : ∀ k < 4, part k → ram'.byte (ramOffset (a + UInt32.ofNat k)) = Word.byte v k
  kept : ∀ j, (∀ k < 4, part k → j ≠ ramOffset (a + UInt32.ofNat k)) → ram'.byte j = ram.byte j

/-- Two parts of the same word do not spoil each other. -/
theorem Stores.trans {p q : Nat → Prop} {v : UInt32} {ram' ram'' : MainRam} (h : Stores p a v ram ram')
    (g : Stores q a v ram' ram'') : Stores (fun k => p k ∨ q k) a v ram ram'' := by
  refine ⟨fun k hk hpart => ?_, fun j hj => ?_⟩
  · by_cases hq : q k
    · exact g.stored k hk hq
    · rw [g.kept _ fun l hl hql heq => hq (ramOffset_inj hk hl heq ▸ hql)]
      exact h.stored k hk (hpart.resolve_right hq)
  · rw [g.kept j fun k hk hq => hj k hk (.inr hq), h.kept j fun k hk hp => hj k hk (.inl hp)]

theorem Stores.all {p : Nat → Prop} {v : UInt32} {ram' : MainRam} (h : Stores p a v ram ram')
    (hp : ∀ k < 4, p k) : Stores (fun _ => True) a v ram ram' :=
  ⟨fun k hk _ => h.stored k hk (hp k hk), fun j hj => h.kept j fun k hk _ => hj k hk trivial⟩

/-- The lanes that the pieces cover of the word at a virtual address have become those of a value, and no
other byte has changed. -/
def Patched (pieces : List (UInt32 × Width)) (vaddr value : UInt32) (ram ram' : MainRam) : Prop :=
  ∀ j, ram'.byte j =
    if wordOffset (translate vaddr) ≤ j ∧ j < wordOffset (translate vaddr) + 4 ∧
        Lane.Covers pieces (j - wordOffset (translate vaddr)) then
      Word.byte value (j - wordOffset (translate vaddr))
    else ram.byte j

variable {ram ram' ram'' : MainRam} {l : Fin 4} {p : UInt32 × Width} {pieces : List (UInt32 × Width)}
  {vaddr value : UInt32}

theorem ramOffset_piece (hp : p ∈ Lane.upTo l ++ Lane.onward l) (vaddr : UInt32) :
    ramOffset (Lane.base vaddr + p.1) = wordOffset (translate vaddr) + p.1.toNat := by
  have hlane : ∀ l : Fin 4, ∀ p ∈ Lane.upTo l ++ Lane.onward l, p.1.toNat < 4 := by decide
  have h := hlane l p hp
  have hbase := Lane.base_add_piece hp vaddr
  rw [ramOffset_eq, wordOffset_translate hbase]
  simp only [Lane.of]
  rw [UInt32.toNat_add, Lane.toNat_base]
  omega

theorem patched_piece (ram : MainRam) (hp : p ∈ Lane.upTo l ++ Lane.onward l) (vaddr value : UInt32) :
    Patched [p] vaddr value ram
      (ram.write (ramOffset (Lane.base vaddr + p.1)) (value >>> (8 * p.1)) p.2) := by
  have hfits : ∀ l : Fin 4, ∀ p ∈ Lane.upTo l ++ Lane.onward l,
      p.1.toNat + p.2.bytes ≤ 4 ∧ 8 * p.1 = UInt32.ofNat (8 * p.1.toNat) := by decide
  obtain ⟨hend, hshift⟩ := hfits l p hp
  have hword : wordOffset (translate vaddr) + 4 ≤ ramSize := by
    simp only [wordOffset, ramSize]
    omega
  intro j
  rw [Bank.byte_write, ramOffset_piece hp, hshift]
  split
  · have hin : wordOffset (translate vaddr) ≤ j ∧ j < wordOffset (translate vaddr) + 4 ∧
        Lane.Covers [p] (j - wordOffset (translate vaddr)) :=
      ⟨by omega, by omega, p, List.mem_singleton_self p, by omega, by omega⟩
    have hindex : p.1.toNat + (j - (wordOffset (translate vaddr) + p.1.toNat)) =
        j - wordOffset (translate vaddr) := by omega
    have hbyte := Word.byte_shiftRight_bytes value (l := p.1.toNat)
      (k := j - (wordOffset (translate vaddr) + p.1.toNat)) (by omega)
    rw [hindex] at hbyte
    rw [if_pos hin]
    exact hbyte
  · rw [if_neg]
    rintro ⟨hle, hlt, q, hq, hfirst, hlast⟩
    cases List.mem_singleton.mp hq
    omega

/-- Where two patches overlap they agree, being of one value. -/
theorem Patched.cons (h : Patched [p] vaddr value ram ram') (g : Patched pieces vaddr value ram' ram'') :
    Patched (p :: pieces) vaddr value ram ram'' := by
  have hcovers : ∀ d, Lane.Covers (p :: pieces) d ↔ Lane.Covers pieces d ∨ Lane.Covers [p] d := by
    intro d
    simp [Lane.Covers, or_comm]
  intro j
  have hj := h j
  have gj := g j
  rw [gj, hj]
  simp only [hcovers]
  by_cases hle : wordOffset (translate vaddr) ≤ j <;>
    by_cases hlt : j < wordOffset (translate vaddr) + 4 <;>
    by_cases hrest : Lane.Covers pieces (j - wordOffset (translate vaddr)) <;> simp [hle, hlt, hrest]

/-- The lanes from that of an address on are the bytes behind it. -/
theorem Patched.right {a v : UInt32}
    (h : Patched (Lane.onward (Lane.of a)) a (v <<< UInt32.ofNat (8 * Lane.of a)) ram ram') :
    Stores (fun k => k + (Lane.of a).val < 4) a v ram ram' := by
  refine ⟨fun k hk hpart => ?_, fun j hj => ?_⟩
  · have hindex : wordOffset (translate a) + (k + Lane.of a) - wordOffset (translate a) =
        k + Lane.of a := by omega
    have hcovers := (Lane.covers_onward (Lane.of a) (k + Lane.of a) hpart).mpr (by omega)
    rw [ramOffset_right hpart, h, hindex, if_pos ⟨by omega, by omega, hcovers⟩,
      Word.byte_shiftLeft _ _ hpart (by omega), Nat.add_sub_cancel]
  · rw [h, if_neg]
    rintro ⟨hle, hlt, hcovers⟩
    have hlane := (Lane.covers_onward _ _ (by omega)).mp hcovers
    refine hj (j - wordOffset (translate a) - Lane.of a) (by omega) (by omega) ?_
    rw [ramOffset_right (by omega)]
    omega

/-- The lanes up to that of the last of four bytes are the bytes before it. -/
theorem Patched.left {a v : UInt32}
    (h : Patched (Lane.upTo (Lane.of (a + 3))) (a + 3) (v >>> (24 - UInt32.ofNat (8 * Lane.of (a + 3))))
      ram ram') :
    Stores (fun k => 3 ≤ k + (Lane.of (a + 3)).val) a v ram ram' := by
  refine ⟨fun k hk hpart => ?_, fun j hj => ?_⟩
  · have hindex : wordOffset (translate (a + 3)) + (k + Lane.of (a + 3) - 3) -
        wordOffset (translate (a + 3)) = k + Lane.of (a + 3) - 3 := by omega
    have hbyte : k + (Lane.of (a + 3)).val - 3 + 3 - Lane.of (a + 3) = k := by omega
    have hcovers := (Lane.covers_upTo (Lane.of (a + 3)) (k + Lane.of (a + 3) - 3) (by omega)).mpr (by omega)
    rw [ramOffset_left hk hpart, h, hindex, if_pos ⟨by omega, by omega, hcovers⟩,
      Word.byte_shiftRight _ _ (by omega), hbyte]
  · rw [h, if_neg]
    rintro ⟨hle, hlt, hcovers⟩
    have hlane := (Lane.covers_upTo _ _ (by omega)).mp hcovers
    refine hj (j - wordOffset (translate (a + 3)) + 3 - Lane.of (a + 3)) (by omega) (by omega) ?_
    rw [ramOffset_left (by omega) (by omega)]
    omega

end MainRam
end R3000
