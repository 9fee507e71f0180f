import Mathlib.Data.Nat.Digits.Defs
import R3000.Proofs.RomContents
import R3000.Proofs.UnalignedWords

/-! # RAM is an array of bytes

RAM is reached by the bus through four images, and word by word without it. Both ways lead to the same bytes,
whatever the width of an access: a write replaces the bytes that its address stands for in every image, and a
read gives the number that they make, the lowest address holding its lowest digit. -/
namespace R3000

/-- A byte that is put above a number. -/
theorem Word.toNat_or_byte {w : UInt32} {k : Nat} (hk : k < 4) (hw : w.toNat < 2 ^ (8 * k)) (x : UInt8) :
    (w ||| x.toUInt32 <<< UInt32.ofNat (8 * k)).toNat = w.toNat + 2 ^ (8 * k) * x.toNat := by
  have hx : x.toNat <<< (8 * k) < 2 ^ 32 := by
    have hfits : 2 ^ (8 * k) * x.toNat < 2 ^ (8 * k) * 2 ^ 8 := by
      gcongr
      exact x.toNat_lt
    rw [Nat.shiftLeft_eq, Nat.mul_comm]
    refine Nat.lt_of_lt_of_le hfits ?_
    rw [← Nat.pow_add]
    exact Nat.pow_le_pow_right (by decide) (by omega)
  rw [UInt32.toNat_or, UInt32.toNat_shiftLeft, toNat_amount (by omega), UInt8.toNat_toUInt32,
    Nat.mod_eq_of_lt hx, Nat.or_comm, ← Nat.shiftLeft_add_eq_or_of_lt hw, Nat.shiftLeft_eq, Nat.mul_comm,
    Nat.add_comm]

/-- The bytes that a read covers are the digits of what it gives, from the low end up. -/
theorem Bank.toNat_read {n : Nat} (b : Bank n) (offset : Nat) (w : Width) : (b.read offset w).toNat =
    Nat.ofDigits 256 ((List.range w.bytes).map fun k => (b.byte (offset + k)).toNat) := by
  have hfirst := (b.byte offset).toNat_lt
  have hsecond := (b.byte (offset + 1)).toNat_lt
  have hthird := (b.byte (offset + 2)).toNat_lt
  have hone : ((b.byte offset).toUInt32).toNat = (b.byte offset).toNat := UInt8.toNat_toUInt32 _
  have htwo := Word.toNat_or_byte (k := 1) (by decide) (by rw [hone]; omega) (b.byte (offset + 1))
  rw [hone] at htwo
  have hthree := Word.toNat_or_byte (k := 2) (by decide) (by rw [htwo]; omega) (b.byte (offset + 2))
  rw [htwo] at hthree
  have hfour := Word.toNat_or_byte (k := 3) (by decide) (by rw [hthree]; omega) (b.byte (offset + 3))
  rw [hthree] at hfour
  cases w with
  | byte =>
    refine hone.trans ?_
    simp [List.range_succ, Width.bytes]
  | half =>
    refine htwo.trans ?_
    simp [List.range_succ, Width.bytes, Nat.ofDigits]
  | word =>
    refine hfour.trans ?_
    simp [List.range_succ, Width.bytes, Nat.ofDigits]
    omega

/-- An access to RAM: by the bus, or to a word without it. -/
inductive RamAccess
  | read (addr : UInt32) (w : Width)
  | write (addr value : UInt32) (w : Width)
  | word (addr : UInt32)
  | setWord (addr value : UInt32)

namespace RamAccess
variable {δ : Type} {a : RamAccess} {accesses : List RamAccess} {ram : MainRam} {j k : Nat} {x : UInt8}

/-- Gives the value that is read, if one is. -/
def perform : RamAccess → Bus.Op δ (Except BusError (Option UInt32))
  | .read addr w => do return (← Bus.read addr w).map some
  | .write addr value w => do return (← Bus.write addr value w).map fun _ => none
  | .word addr => do return .ok (some ((← get).ram.word addr))
  | .setWord addr value => do
    modify fun b => { b with ram := b.ram.setWord addr value }
    return .ok none

/-- The bus has RAM answer it, and it is aligned. Where there is no bus any address will do. -/
def Mapped : RamAccess → Prop
  | .read addr w | .write addr _ w => addr < ramWindowEnd ∧ w.aligned addr
  | .word _ | .setWord _ _ => True

instance : DecidablePred Mapped
  | .read _ _ | .write _ _ _ => inferInstanceAs (Decidable (_ ∧ _))
  | .word _ | .setWord _ _ => inferInstanceAs (Decidable True)

def address : RamAccess → UInt32
  | .read addr _ | .write addr _ _ => addr
  | .word addr | .setWord addr _ => Lane.base addr

def width : RamAccess → Width
  | .read _ w | .write _ _ w => w
  | .word _ | .setWord _ _ => .word

def value? : RamAccess → Option UInt32
  | .write _ value _ | .setWord _ value => some value
  | .read _ _ | .word _ => none

def offset (a : RamAccess) (k : Nat) : Nat := (a.address.toNat + k) % ramSize

def Writes (a : RamAccess) (j : Nat) (x : UInt8) : Prop :=
  ∃ value, a.value? = some value ∧ ∃ k < a.width.bytes, a.offset k = j ∧ Word.byte value k = x

def Spares (a : RamAccess) (j : Nat) : Prop := ∀ x, ¬a.Writes j x

/-- The last one that writes at an offset writes this byte there. -/
inductive LastWritten (j : Nat) (x : UInt8) : List RamAccess → Prop
  | here {a : RamAccess} {later : List RamAccess} :
      a.Writes j x → (∀ c ∈ later, c.Spares j) → LastWritten j x (a :: later)
  | later {a : RamAccess} {later : List RamAccess} : LastWritten j x later → LastWritten j x (a :: later)

/-- The byte that accesses leave at an offset: the last that is written there, or else what was there. -/
def Leave (accesses : List RamAccess) (ram : MainRam) (j : Nat) (x : UInt8) : Prop :=
  LastWritten j x accesses ∨ (∀ a ∈ accesses, a.Spares j) ∧ ram.byte j = x

def into (a : RamAccess) (ram : MainRam) : MainRam :=
  match a.value? with
  | some value => ram.write (a.address.toNat % ramSize) value a.width
  | none => ram

def answer? (a : RamAccess) (ram : MainRam) : Option UInt32 :=
  match a.value? with
  | some _ => none
  | none => some (ram.read (a.address.toNat % ramSize) a.width)

theorem perform_eq (h : a.Mapped) (b : Bus δ) :
    a.perform b = pure (.ok (a.answer? b.ram), { b with ram := a.into b.ram }) := by
  have hbase : ∀ addr, (Lane.base addr).toNat % ramSize = MainRam.wordOffset addr := fun addr => by
    simp only [MainRam.wordOffset, ramSize, Lane.toNat_base]
    omega
  have hregion : ∀ {addr : UInt32}, addr < ramWindowEnd →
      Bus.Region.of addr = .ram (addr.toNat % ramSize) := fun h => if_pos h
  cases a with
  | read addr w =>
    have hregion := hregion h.1
    have hholds := Bus.Region.holds_ram h.2 hregion
    simp only [perform, Bus.read, hregion, hholds]
    rfl
  | write addr value w =>
    have hregion := hregion h.1
    have hholds := Bus.Region.holds_ram h.2 hregion
    simp only [perform, Bus.write, hregion, hholds]
    rfl
  | word addr =>
    simp only [answer?, value?, address, width, hbase]
    rfl
  | setWord addr value =>
    simp only [into, value?, address, width, hbase]
    rfl

theorem aligned_address (h : a.Mapped) : a.width.aligned a.address := by
  cases a with
  | read addr w | write addr value w => exact h.2
  | word addr | setWord addr value => exact Width.word_aligned_base addr

/-- No access runs over the end of RAM. -/
theorem offset_eq (h : a.Mapped) (hk : k < a.width.bytes) :
    a.offset k = a.address.toNat % ramSize + k ∧ a.offset k < ramSize := by
  have haligned := (Width.aligned_iff _ _).mp (aligned_address h)
  simp only [offset, ramSize]
  cases hw : a.width <;> rw [hw] at haligned hk <;> simp only [Width.bytes] at haligned hk <;> omega

theorem byte_into (h : a.Mapped) (ram : MainRam) (j : Nat) (x : UInt8) :
    (a.into ram).byte j = x ↔ a.Writes j x ∨ a.Spares j ∧ ram.byte j = x := by
  unfold into Spares Writes
  cases hv : a.value? with
  | none => simp
  | some value =>
    dsimp only
    rw [Bank.byte_write]
    by_cases hin : ∃ k < a.width.bytes, a.offset k = j
    · obtain ⟨k, hk, rfl⟩ := hin
      obtain ⟨hoffset, hlt⟩ := offset_eq h hk
      have hindex : a.offset k - a.address.toNat % ramSize = k := by omega
      rw [if_pos ⟨by omega, by omega, hlt⟩, hindex]
      constructor
      · exact fun hx => .inl ⟨value, rfl, k, hk, rfl, hx⟩
      · rintro (⟨v, hv, l, hl, heq, hx⟩ | ⟨hspared, -⟩)
        · -- an access covers an offset once, so it is the same byte of the value
          cases hv
          rw [(offset_eq h hl).1, hoffset, Nat.add_left_cancel_iff] at heq
          rwa [← heq]
        · exact absurd ⟨value, rfl, k, hk, rfl, rfl⟩ (hspared (Word.byte value k))
    · have hnone : ∀ y, ¬∃ v, some value = some v ∧ ∃ l < a.width.bytes, a.offset l = j ∧
          Word.byte v l = y := fun y ⟨_, _, l, hl, heq, _⟩ => hin ⟨l, hl, heq⟩
      rw [if_neg]
      · exact ⟨fun hx => .inr ⟨hnone, hx⟩, fun hx => (hx.resolve_left (hnone x)).2⟩
      · rintro ⟨hle, hlt, hend⟩
        have hk : j - a.address.toNat % ramSize < a.width.bytes := by omega
        refine hin ⟨_, hk, ?_⟩
        rw [(offset_eq h hk).1]
        omega

theorem leave_nil : Leave [] ram j x ↔ ram.byte j = x := by
  refine ⟨fun h => ?_, fun h => .inr ⟨nofun, h⟩⟩
  obtain h | ⟨-, h⟩ := h
  · cases h
  · exact h

theorem leave_cons (h : a.Mapped) :
    Leave (a :: accesses) ram j x ↔ Leave accesses (a.into ram) j x := by
  unfold Leave
  rw [byte_into h, List.forall_mem_cons]
  constructor
  · rintro (hlast | ⟨⟨hfirst, hrest⟩, hx⟩)
    · cases hlast with
      | here hwrites hrest => exact .inr ⟨hrest, .inl hwrites⟩
      | later hlast => exact .inl hlast
    · exact .inr ⟨hrest, .inr ⟨hfirst, hx⟩⟩
  · rintro (hlast | ⟨hrest, hwrites | ⟨hfirst, hx⟩⟩)
    · exact .inl (.later hlast)
    · exact .inl (.here hwrites hrest)
    · exact .inr ⟨⟨hfirst, hrest⟩, hx⟩

/-- What comes of accesses one after the other that leave this RAM. -/
structure Performed (accesses : List RamAccess) (b : Bus δ) (ram : MainRam) : Prop where
  /-- All are answered. Nothing is recorded, and nothing has changed but RAM. -/
  only : ∃ answers : List (Option UInt32),
    accesses.mapM perform b = pure (answers.map .ok, { b with ram })
  bytes : ∀ j x, ram.byte j = x ↔ Leave accesses b.ram j x
  /-- A read gives the bytes that they have left at its addresses. -/
  reads : ∀ a : RamAccess, a.Mapped → a.value? = none → ∃ v,
    a.perform { b with ram } = pure (.ok (some v), { b with ram }) ∧
      ∀ bytes : Nat → UInt8, (∀ k < a.width.bytes, Leave accesses b.ram (a.offset k) (bytes k)) →
        v.toNat = Nat.ofDigits 256 ((List.range a.width.bytes).map fun k => (bytes k).toNat)

theorem mapM_perform (h : ∀ a ∈ accesses, a.Mapped) (b : Bus δ) :
    ∃ (answers : List (Option UInt32)) (ram : MainRam),
      accesses.mapM perform b = pure (answers.map .ok, { b with ram }) ∧
        ∀ j x, ram.byte j = x ↔ Leave accesses b.ram j x := by
  induction accesses generalizing b with
  | nil => exact ⟨[], b.ram, rfl, fun _ _ => leave_nil.symm⟩
  | cons a accesses ih =>
    obtain ⟨hfirst, hrest⟩ := List.forall_mem_cons.mp h
    obtain ⟨answers, ram, hrun, hbytes⟩ := ih hrest { b with ram := a.into b.ram }
    refine ⟨a.answer? b.ram :: answers, ram, ?_, fun j x => (hbytes j x).trans (leave_cons hfirst).symm⟩
    rw [List.mapM_cons]
    show (a.perform b >>= fun p => (accesses.mapM perform p.2) >>= fun q => pure (p.1 :: q.1, q.2)) = _
    rw [perform_eq hfirst, pure_bind, hrun, pure_bind]
    rfl

theorem performed (h : ∀ a ∈ accesses, a.Mapped) (b : Bus δ) : ∃ ram, Performed accesses b ram := by
  obtain ⟨answers, ram, hrun, hbytes⟩ := mapM_perform h b
  refine ⟨ram, ⟨answers, hrun⟩, hbytes, fun a ha hv => ?_⟩
  refine ⟨ram.read (a.address.toNat % ramSize) a.width, ?_, fun bytes hleave => ?_⟩
  · rw [perform_eq ha]
    simp only [answer?, into, hv]
  · rw [Bank.toNat_read]
    refine congrArg _ (List.map_congr_left fun k hk => ?_)
    have hk := List.mem_range.mp hk
    rw [← (offset_eq ha hk).1, (hbytes _ _).mpr (hleave k hk)]

end RamAccess

namespace Machine
variable {γ δ : Type}

/-- After any accesses to RAM, what is read there is made of the bytes that have been written last at its
addresses, in whichever image, and nothing else has changed. What is in ROM stays as the machine runs. -/
theorem memory_bytes (m : Machine γ δ) :
    (∀ accesses : List RamAccess, (∀ a ∈ accesses, a.Mapped) →
      ∃ ram, RamAccess.Performed accesses m.bus ram) ∧
    (∀ n, (m.after n).bus.rom = m.bus.rom) ∧ ∀ budget, (run budget m).value.2.bus.rom = m.bus.rom :=
  ⟨fun _ h => RamAccess.performed h m.bus, m.rom_after, m.rom_run⟩

/-- Two images of RAM are written, and a third one is read. -/
theorem memory_bytes_bare :
    (∀ a ∈ [RamAccess.write 0x00201000 0x11223344 .word, .write 0x00401002 0xab .byte], a.Mapped) ∧
    ∃ ram v, (RamAccess.read 0x00001002 .half).perform { bare.bus with ram } =
      pure (.ok (some v), { bare.bus with ram }) ∧ v = 0x11ab := by
  have hmapped : ∀ a ∈ [RamAccess.write 0x00201000 0x11223344 .word, .write 0x00401002 0xab .byte],
      a.Mapped := by decide
  obtain ⟨ram, hperformed⟩ := (memory_bytes bare).1 _ hmapped
  obtain ⟨v, hread, hvalue⟩ := hperformed.reads (.read 0x00001002 .half) (by decide) rfl
  have hlow : RamAccess.LastWritten 0x1002 0xab
      [.write 0x00201000 0x11223344 .word, .write 0x00401002 0xab .byte] :=
    .later (.here ⟨0xab, rfl, 0, by decide, by decide, by decide⟩ (by simp))
  have hhigh : RamAccess.LastWritten 0x1003 0x11
      [.write 0x00201000 0x11223344 .word, .write 0x00401002 0xab .byte] := by
    refine .here ⟨0x11223344, rfl, 3, by decide, by decide, by decide⟩ ?_
    rw [List.forall_mem_singleton]
    rintro x ⟨_, -, k, hk, hoffset, -⟩
    obtain rfl : k = 0 := Nat.lt_one_iff.mp hk
    exact absurd hoffset (by decide)
  have hdigits := hvalue (fun k => if k = 0 then 0xab else 0x11) fun k hk => by
    obtain rfl | rfl : k = 0 ∨ k = 1 := by
      have hk : k < 2 := hk
      omega
    · exact .inl hlow
    · exact .inl hhigh
  exact ⟨hmapped, ram, v, hread, UInt32.toNat_inj.mp hdigits⟩

end Machine
end R3000
