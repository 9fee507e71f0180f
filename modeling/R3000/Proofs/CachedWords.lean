import R3000.DataArray
import R3000.Proofs.Lanes

/-! # The data array as a copy of main RAM

A word of RAM shows at four addresses below the end of its window, and a copy of it in the data array is
known by the one that it was read at. A store keeps that copy in step only if it uses the same address. -/
namespace R3000

namespace MainRam

/-- The addresses at which a word of RAM shows. -/
def images (addr : UInt32) : List UInt32 :=
  (List.range 4).map fun k => UInt32.ofNat (wordOffset addr + k * ramSize)

theorem wordOffset_base (addr : UInt32) : wordOffset (Lane.base addr) = wordOffset addr := by
  simp only [wordOffset, ramSize, Lane.toNat_base]
  omega

theorem word_base (ram : MainRam) (addr : UInt32) : ram.word (Lane.base addr) = ram.word addr := by
  simp only [word]
  rw [wordOffset_base]

/-- A word that is written replaces one word of RAM. -/
theorem word_setWord (ram : MainRam) (addr value a : UInt32) : (ram.setWord addr value).word a =
    if wordOffset a = wordOffset addr then value else ram.word a := by
  have haligned := Width.word_aligned_base addr
  have hoffset : (Lane.base addr).toNat % ramSize = wordOffset addr := by
    simp only [wordOffset, ramSize, Lane.toNat_base]
    omega
  have hwrite := word_write ram value haligned a
  rw [hoffset, wordOffset_base] at hwrite
  simp only [setWord]
  rw [hwrite]
  refine ite_congr rfl (fun _ => ?_) fun _ => rfl
  apply Word.eq_of_bit
  intro i hi
  have hlane : (Lane.of (Lane.base addr)).val = 0 := by
    simp only [Lane.of, Lane.toNat_base]
    omega
  rw [Lane.bit_insert haligned _ _ hi, hlane, if_pos ⟨Nat.zero_le i, by simpa [Width.bytes] using hi⟩]
  rfl

theorem base_mem_images {a addr : UInt32} (ha : a < ramWindowEnd)
    (h : wordOffset a = wordOffset addr) : Lane.base a ∈ images addr := by
  have hlt : a.toNat < 0x800000 := UInt32.lt_iff_toNat_lt.mp ha
  refine List.mem_map.mpr ⟨a.toNat / ramSize, List.mem_range.mpr ?_, ?_⟩
  · simp only [ramSize]
    omega
  · rw [← h, ← UInt32.toNat_inj, Lane.toNat_base]
    simp only [wordOffset, ramSize, UInt32.toNat_ofNat']
    omega

end MainRam

namespace DataArray
variable {d e : DataArray} {ram : MainRam} {a addr value : UInt32} {w : Width}

/-- An index and a tag together make the address of a word. -/
theorem base_eq_iff : Lane.base a = Lane.base addr ↔ index a = index addr ∧ tag a = tag addr := by
  simp only [index, tag, Fin.ext_iff]
  rw [← UInt32.toNat_inj, ← UInt32.toNat_inj, Lane.toNat_base, Lane.toNat_base]
  simp only [UInt32.toNat_shiftRight, UInt32.reduceToNat, Nat.shiftRight_eq_div_pow, Nat.reduceMod,
    Nat.reducePow]
  omega

theorem lookup_congr (h : Lane.base a = Lane.base addr) : d.lookup a = d.lookup addr := by
  obtain ⟨hindex, htag⟩ := base_eq_iff.mp h
  simp only [lookup, word, hindex, htag]

theorem isSome_lookup {i : Fin 256} (hi : index addr = i) :
    (d.lookup addr).isSome ↔ d.tags[i] = some (tag addr) := by
  subst hi
  simp only [lookup]
  split
  · exact iff_of_true rfl ‹_›
  · exact iff_of_false nofun ‹_›

/-- Every tagged word is a copy of the word of RAM at its address. -/
def Mirrors (d : DataArray) (ram : MainRam) : Prop :=
  ∀ i t, d.tags[i] = some t →
    ∃ addr < ramWindowEnd, index addr = i ∧ tag addr = t ∧ d.words[i] = ram.word addr

theorem mirrors_empty (h : d.tags = Vector.replicate 256 none) : d.Mirrors ram := by
  intro i t hi
  simp [h] at hi

theorem Mirrors.lookup (h : d.Mirrors ram) (hl : d.lookup addr = some value) :
    value = ram.word addr := by
  simp only [DataArray.lookup, Option.ite_none_right_eq_some] at hl
  obtain ⟨htag, hword⟩ := hl
  obtain ⟨a, -, hindex, htag', hcopy⟩ := h _ _ htag
  rw [← Option.some.inj hword, ← ram.word_base addr, ← base_eq_iff.mpr ⟨hindex, htag'⟩, ram.word_base]
  exact hcopy

/-- The array holds a copy of the word of RAM at an address that is known by another address. -/
def Aliased (d : DataArray) (addr : UInt32) : Prop :=
  ∃ a ∈ MainRam.images addr, a ≠ Lane.base addr ∧ (d.lookup a).isSome

instance : Decidable (d.Aliased addr) := inferInstanceAs (Decidable (∃ _ ∈ _, _))

theorem aliased_congr (ht : e.tags = d.tags) (hb : Lane.base a = Lane.base addr) :
    e.Aliased a ↔ d.Aliased addr := by
  have himages : MainRam.images a = MainRam.images addr := by
    simp only [MainRam.images]
    rw [← MainRam.wordOffset_base a, hb, MainRam.wordOffset_base]
  simp only [Aliased, isSome_lookup rfl]
  rw [himages, hb, ht]

theorem Mirrors.fill (h : d.Mirrors ram) (haddr : addr < ramWindowEnd) :
    (d.fill addr (ram.word addr)).Mirrors ram := by
  intro i t hi
  by_cases hindex : index addr = i
  · subst hindex
    simp [DataArray.fill] at hi ⊢
    exact ⟨addr, haddr, rfl, hi, rfl⟩
  · have hne : (index addr).val ≠ i.val := fun hv => hindex (Fin.ext hv)
    simp [DataArray.fill, hne] at hi ⊢
    exact h i t hi

theorem tags_writeThrough (d : DataArray) (addr value : UInt32) (w : Width) :
    (d.writeThrough addr value w).tags = d.tags := by
  unfold writeThrough
  split <;> rfl

/-- A store keeps the copies in step with RAM where none is known by another address. -/
theorem Mirrors.store (h : d.Mirrors ram) (hw : w.aligned addr) (ha : ¬d.Aliased addr) (value : UInt32) :
    (d.writeThrough addr value w).Mirrors (ram.write (addr.toNat % ramSize) value w) := by
  intro i t hi
  rw [tags_writeThrough] at hi
  obtain ⟨a, hlt, rfl, rfl, hcopy⟩ := h i t hi
  refine ⟨a, hlt, rfl, rfl, ?_⟩
  have hheld : (d.lookup a).isSome := (isSome_lookup rfl).mpr hi
  rw [MainRam.word_write ram value hw]
  by_cases hb : Lane.base a = Lane.base addr
  · -- the copy of the word that is stored to
    have hoffset : MainRam.wordOffset a = MainRam.wordOffset addr := by
      rw [← MainRam.wordOffset_base a, hb, MainRam.wordOffset_base]
    rw [lookup_congr hb] at hheld
    rw [if_pos hoffset, ← hcopy]
    simp [writeThrough, hheld, write, (base_eq_iff.mp hb).1, word]
  · -- a copy of another word, or else the store would be to an image of it
    have hoffset : MainRam.wordOffset a ≠ MainRam.wordOffset addr := by
      intro hoffset
      refine ha ⟨Lane.base a, MainRam.base_mem_images hlt hoffset, hb, ?_⟩
      rwa [lookup_congr (Lane.base_base a)]
    rw [if_neg hoffset, ← hcopy]
    unfold writeThrough
    split
    · have hindex : index addr ≠ index a := fun hindex => by
        have htag := (isSome_lookup hindex).mp ‹_›
        exact hb (base_eq_iff.mpr ⟨hindex.symm, Option.some.inj (hi.symm.trans htag)⟩)
      have hne : (index addr).val ≠ (index a).val := fun hv => hindex (Fin.ext hv)
      simp [write, hne]
    · rfl

end DataArray
end R3000
