import R3000.Proofs.StoredRoundTrip

/-! # What can be read is what was stored

Decoding accepts nothing but the bytes that encoding gives of the value, whatever follows them. So each value
has one stored form, and the bytes that are taken for a savestate are the stored form of one. -/
namespace R3000

namespace Decoder
variable {α β : Type} {d : Decoder α} {f : α → Decoder β} {encode : α → List UInt8}
  {input rest : List UInt8} {a : α} {b : β}

/-- All that the decoder takes off an input is the encoding of the value that it gives. -/
def Accepts (d : Decoder α) (encode : α → List UInt8) : Prop :=
  ∀ input a rest, d input = .ok (a, rest) → input = encode a ++ rest

theorem bind_inv (h : (d >>= f) input = .ok (b, rest)) :
    ∃ a mid, d input = .ok (a, mid) ∧ f a mid = .ok (b, rest) := by
  have hbind : (d >>= f) input = (d input >>= fun p => f p.1 p.2) := rfl
  rw [hbind] at h
  cases hd : d input with
  | error e =>
    rw [hd] at h
    cases h
  | ok p =>
    rw [hd] at h
    exact ⟨p.1, p.2, rfl, h⟩

theorem map_inv {g : α → β} (h : (g <$> d) input = .ok (b, rest)) :
    ∃ a, d input = .ok (a, rest) ∧ g a = b := by
  rw [← bind_pure_comp] at h
  obtain ⟨a, mid, ha, hb⟩ := bind_inv h
  cases hb
  exact ⟨a, ha, rfl⟩

theorem Accepts.map {g : α → β} {parts : β → α} (hd : d.Accepts encode) (hg : ∀ a, parts (g a) = a) :
    (g <$> d).Accepts fun b => encode (parts b) := by
  intro input b rest h
  obtain ⟨a, ha, rfl⟩ := map_inv h
  show input = encode (parts (g a)) ++ rest
  rw [hg]
  exact hd input a rest ha

theorem accepts_byte : byte.Accepts fun b => [b] := by
  intro input b rest h
  cases input with
  | nil => cases h
  | cons c cs =>
    cases h
    rfl

theorem number_inv {k n : Nat} (h : number k input = .ok (n, rest)) :
    n < span k ∧ input = lowBytes k n ++ rest := by
  induction k generalizing input n with
  | zero =>
    cases h
    exact ⟨Nat.one_pos, rfl⟩
  | succ k ih =>
    obtain ⟨c, mid, hc, h⟩ := bind_inv h
    obtain ⟨v, last, hv, h⟩ := bind_inv h
    cases h
    obtain ⟨hlt, rfl⟩ := ih hv
    have hbyte : c.toNat < 256 := c.toNat_lt
    have hlow : (c.toNat + 256 * v) / 256 = v := by omega
    refine ⟨?_, ?_⟩
    · simp only [span]
      omega
    · rw [accepts_byte _ _ _ hc, lowBytes, hlow]
      have hfirst : UInt8.ofNat (c.toNat + 256 * v) = c := by
        rw [← UInt8.toNat_inj, UInt8.toNat_ofNat']
        omega
      rw [hfirst]
      rfl

/-- A word of some bytes, read as a number. -/
theorem accepts_number {k : Nat} {build : Nat → α} {value : α → Nat}
    (hb : ∀ n, n < span k → value (build n) = n) :
    (build <$> number k).Accepts fun a => lowBytes k (value a) := by
  intro input a rest h
  obtain ⟨n, hn, rfl⟩ := map_inv h
  obtain ⟨hlt, rfl⟩ := number_inv hn
  show _ = lowBytes k (value (build n)) ++ rest
  rw [hb n hlt]

theorem take_inv {n : Nat} {l : List UInt8} (h : take n input = .ok (l, rest)) :
    l.length = n ∧ input = l ++ rest := by
  simp only [take] at h
  split at h
  · cases h
    exact ⟨List.length_take_of_le ‹_›, (List.take_append_drop n input).symm⟩
  · cases h

end Decoder

/-- Nothing but the stored form of a value is read as the value. -/
class CanonicalStored (α : Type) [Stored α] : Prop where
  accepts : (Stored.decode : Decoder α).Accepts Stored.encode

namespace Stored
variable {α β : Type} [Stored α] [Stored β]
open Decoder

instance : CanonicalStored UInt8 := ⟨accepts_byte⟩

instance : CanonicalStored UInt16 := ⟨accepts_number fun _ => UInt16.toNat_ofNat_of_lt⟩

instance : CanonicalStored UInt32 := ⟨accepts_number fun _ => UInt32.toNat_ofNat_of_lt⟩

instance : CanonicalStored UInt64 := ⟨accepts_number fun _ => UInt64.toNat_ofNat_of_lt⟩

instance : CanonicalStored Bool where
  accepts input b rest h := by
    obtain ⟨c, mid, hc, h⟩ := bind_inv h
    rw [accepts_byte _ _ _ hc]
    split at h
    · subst c
      cases h
      rfl
    split at h
    · subst c
      cases h
      rfl
    · cases h

instance [CanonicalStored α] : CanonicalStored (Option α) where
  accepts input o rest h := by
    obtain ⟨c, mid, hc, h⟩ := bind_inv h
    rw [accepts_byte _ _ _ hc]
    split at h
    · subst c
      cases h
      rfl
    split at h
    · subst c
      obtain ⟨a, last, ha, h⟩ := bind_inv h
      cases h
      rw [CanonicalStored.accepts _ _ _ ha]
      rfl
    · cases h

instance [CanonicalStored α] [CanonicalStored β] : CanonicalStored (α × β) where
  accepts input p rest h := by
    obtain ⟨a, mid, ha, h⟩ := bind_inv h
    obtain ⟨b, last, hb, h⟩ := bind_inv h
    cases h
    rw [CanonicalStored.accepts _ _ _ ha, CanonicalStored.accepts _ _ _ hb]
    exact (List.append_assoc _ _ _).symm

instance : CanonicalStored ByteArray where
  accepts input b rest h := by
    obtain ⟨n, mid, hn, h⟩ := bind_inv h
    obtain ⟨l, last, hl, h⟩ := bind_inv h
    cases h
    obtain ⟨hlength, rfl⟩ := take_inv hl
    rw [CanonicalStored.accepts _ _ _ hn, ← List.append_assoc]
    have hsize : UInt64.ofNat (ByteArray.size ⟨l.toArray⟩) = n := by
      show UInt64.ofNat l.length = n
      rw [hlength, UInt64.ofNat_toNat]
    show _ = (encode (UInt64.ofNat (ByteArray.size ⟨l.toArray⟩)) ++ l) ++ rest
    rw [hsize]

instance {n : Nat} [CanonicalStored α] : CanonicalStored (Vector α n) where
  accepts := by
    show (decodeVector n).Accepts fun v => v.toList.flatMap encode
    induction n with
    | zero =>
      intro input v rest h
      cases h
      rfl
    | succ n ih =>
      intro input v rest h
      obtain ⟨w, mid, hw, h⟩ := bind_inv h
      obtain ⟨a, last, ha, h⟩ := bind_inv h
      cases h
      rw [ih _ _ _ hw, CanonicalStored.accepts _ _ _ ha]
      show w.toList.flatMap encode ++ (encode a ++ rest) = (w.push a).toList.flatMap encode ++ rest
      rw [Vector.toList_push, List.flatMap_append, List.flatMap_singleton, List.append_assoc]

theorem choice_inv {count i : Nat} {input rest : List UInt8} (h : decodeChoice count input = .ok (i, rest)) :
    i < count ∧ input = encodeChoice i ++ rest := by
  obtain ⟨w, mid, hw, h⟩ := bind_inv h
  split at h
  · cases h
    refine ⟨‹_›, ?_⟩
    rw [CanonicalStored.accepts _ _ _ hw, encodeChoice, UInt32.ofNat_toNat]
  · cases h

omit [Stored α] in
theorem canonical_via [CanonicalStored β] {parts : α → β} {build : β → α} (hb : ∀ b, parts (build b) = b) :
    @CanonicalStored α (.via parts build) :=
  @CanonicalStored.mk α (.via parts build) (CanonicalStored.accepts.map hb)

end Stored
open Stored Decoder

instance : CanonicalStored ICache.Line := canonical_via fun _ => rfl
instance : CanonicalStored ICache := canonical_via fun _ => rfl
instance : CanonicalStored DataArray := canonical_via fun _ => rfl
instance : CanonicalStored Biu := canonical_via fun _ => rfl
instance : CanonicalStored Caches := canonical_via fun _ => rfl

instance : CanonicalStored LoadDelay where
  accepts input l rest h := by
    obtain ⟨i, mid, hi, hform⟩ := bind_inv h
    obtain ⟨hlt, rfl⟩ := choice_inv hi
    obtain rfl | rfl : i = 0 ∨ i = 1 := by omega
    · cases hform
      rfl
    · obtain ⟨reg, mid, hreg, hform⟩ := bind_inv hform
      obtain ⟨value, last, hvalue, hform⟩ := bind_inv hform
      cases hform
      rw [CanonicalStored.accepts _ _ _ hreg, CanonicalStored.accepts _ _ _ hvalue]
      show _ = (encodeChoice 1 ++ (encode reg ++ encode value)) ++ rest
      simp only [List.append_assoc]

instance : CanonicalStored BranchDelay where
  accepts input d rest h := by
    obtain ⟨i, mid, hi, hform⟩ := bind_inv h
    obtain ⟨hlt, rfl⟩ := choice_inv hi
    obtain rfl | rfl | rfl : i = 0 ∨ i = 1 ∨ i = 2 := by omega
    · cases hform
      rfl
    · cases hform
      rfl
    · obtain ⟨target, last, htarget, hform⟩ := bind_inv hform
      cases hform
      rw [CanonicalStored.accepts _ _ _ htarget]
      exact (List.append_assoc _ _ _).symm

instance : CanonicalStored DelaySlots := canonical_via fun _ => rfl
instance : CanonicalStored Dcic := canonical_via fun _ => rfl
instance : CanonicalStored Status := canonical_via fun _ => rfl
instance : CanonicalStored Cause := canonical_via fun _ => rfl
instance : CanonicalStored Cop0 := canonical_via fun _ => rfl
instance : CanonicalStored RegisterFile := canonical_via fun _ => rfl

instance : CanonicalStored MulDivOp where
  accepts input op rest h := by
    obtain ⟨i, mid, hi, hform⟩ := bind_inv h
    obtain ⟨hlt, rfl⟩ := choice_inv hi
    obtain rfl | rfl | rfl | rfl : i = 0 ∨ i = 1 ∨ i = 2 ∨ i = 3 := by omega
    all_goals
      cases hform
      rfl

instance : CanonicalStored MulDivPending := canonical_via fun _ => rfl
instance : CanonicalStored MulDivUnit := canonical_via fun _ => rfl
instance : CanonicalStored Clock := canonical_via fun _ => rfl
instance : CanonicalStored Cpu := canonical_via fun _ => rfl
instance : CanonicalStored MemoryControl := canonical_via fun _ => rfl
instance : CanonicalStored Interrupt.Controller := canonical_via fun _ => rfl
instance : CanonicalStored Serial.Status := canonical_via fun _ => rfl
instance : CanonicalStored Serial.Lines := canonical_via fun _ => rfl
instance : CanonicalStored Serial.Inputs := canonical_via fun _ => rfl
instance : CanonicalStored Serial.Mode := canonical_via fun _ => rfl
instance : CanonicalStored Serial.Control := canonical_via fun _ => rfl
instance : CanonicalStored Serial.Timer := canonical_via fun _ => rfl
instance : CanonicalStored Serial.Port := canonical_via fun _ => rfl
instance : CanonicalStored Dma.ChannelControl := canonical_via fun _ => rfl
instance : CanonicalStored Dma.Channel := canonical_via fun _ => rfl
instance : CanonicalStored Dma.Dicr := canonical_via fun _ => rfl

namespace Savestate

theorem ofImage_ok {i : Image} {s : Savestate} (h : ofImage i = .ok s) : i = s.image := by
  obtain ⟨cpu, bytes, memoryControl, int, ports, channels, dpcr, dicr, wordCycles⟩ := i
  simp only [ofImage, Bank.ofBytes?] at h
  split at h
  · rename_i ram hram
    split at hram
    · cases hram
      cases h
      rfl
    · cases hram
  · cases h

/-- Bytes are accepted as a savestate exactly if they begin with its stored form. -/
theorem ofBytes_iff {input : List UInt8} {s : Savestate} :
    ofBytes input = .ok s ↔ ∃ extra, input = s.toBytes ++ extra := by
  constructor
  · intro h
    unfold ofBytes at h
    cases hdecode : (Stored.decode : Decoder Image) input with
    | error e =>
      rw [hdecode] at h
      cases h
    | ok p =>
      rw [hdecode] at h
      rw [show p = (s.image, p.2) from Prod.ext (ofImage_ok h) rfl] at hdecode
      exact ⟨p.2, CanonicalStored.accepts _ _ _ hdecode⟩
  · rintro ⟨extra, rfl⟩
    exact ofBytes_toBytes s extra

end Savestate
end R3000
