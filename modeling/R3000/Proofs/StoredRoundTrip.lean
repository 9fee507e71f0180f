import R3000.Savestate

/-! # What is stored can be read back

Decoding takes exactly the bytes off the input that encoding put there, whatever follows them; part by
part this holds of the whole of a savestate. -/
namespace R3000

/-- The decoder takes `bytes` off any input and gives `a` for them. -/
def Decoder.Reads {α : Type} (d : Decoder α) (bytes : List UInt8) (a : α) : Prop :=
  ∀ rest, d (bytes ++ rest) = .ok (a, rest)

namespace Decoder
variable {α β : Type} {d : Decoder α} {f : α → Decoder β} {bs cs : List UInt8} {a : α} {b : β}

theorem Reads.pure (a : α) : Reads (pure a) [] a := fun _ => rfl

theorem Reads.bind (hd : d.Reads bs a) (hf : (f a).Reads cs b) : (d >>= f).Reads (bs ++ cs) b := by
  intro rest
  show (d (bs ++ cs ++ rest) >>= fun p => f p.1 p.2) = _
  rw [List.append_assoc, hd]
  exact hf rest

/-- Nothing is read after the last part. -/
theorem Reads.last (hd : d.Reads bs a) (hf : f a = Pure.pure b) : (d >>= f).Reads bs b := by
  have hpure : (f a).Reads [] b := hf ▸ .pure b
  have h := hd.bind hpure
  rwa [List.append_nil] at h

theorem Reads.map (g : α → β) (hd : d.Reads bs a) : Reads (g <$> d) bs (g a) := by
  rw [← bind_pure_comp]
  exact hd.last rfl

theorem reads_byte (b : UInt8) : byte.Reads [b] b := fun _ => rfl

def span : Nat → Nat
  | 0 => 1
  | k + 1 => 256 * span k

theorem reads_number {k n : Nat} (h : n < span k) : (number k).Reads (lowBytes k n) n := by
  induction k generalizing n with
  | zero =>
    rw [Nat.lt_one_iff.mp h]
    exact .pure 0
  | succ k ih =>
    have hrest : n / 256 < span k := Nat.div_lt_of_lt_mul h
    rw [lowBytes, ← List.singleton_append]
    refine (reads_byte _).bind ((ih hrest).last ?_)
    rw [UInt8.toNat_ofNat']
    exact congrArg Pure.pure (Nat.mod_add_div n 256)

theorem reads_take (l : List UInt8) : (take l.length).Reads l l := by
  intro rest
  simp only [take]
  rw [if_pos (by simp), List.take_left, List.drop_left]

end Decoder

namespace Stored
variable {α β : Type} [Stored α] [Stored β]

def Exact (a : α) : Prop := (decode : Decoder α).Reads (encode a) a

end Stored

/-- Every value can be read back. -/
class LawfulStored (α : Type) [Stored α] : Prop where
  exact : ∀ a : α, Stored.Exact a

namespace Stored
variable {α β : Type} [Stored α] [Stored β]
open Decoder

instance : LawfulStored UInt8 := ⟨reads_byte⟩

instance : LawfulStored UInt16 where
  exact w := by
    have hfits : w.toNat < span 2 := w.toNat_lt
    have h := (reads_number hfits).map UInt16.ofNat
    rwa [UInt16.ofNat_toNat] at h

instance : LawfulStored UInt32 where
  exact w := by
    have hfits : w.toNat < span 4 := w.toNat_lt
    have h := (reads_number hfits).map UInt32.ofNat
    rwa [UInt32.ofNat_toNat] at h

instance : LawfulStored UInt64 where
  exact w := by
    have hfits : w.toNat < span 8 := w.toNat_lt
    have h := (reads_number hfits).map UInt64.ofNat
    rwa [UInt64.ofNat_toNat] at h

instance : LawfulStored Bool where
  exact b := by cases b <;> exact fun _ => rfl

instance [LawfulStored α] : LawfulStored (Option α) where
  exact
    | none => fun _ => rfl
    | some a => by
      have h : (decode >>= fun a => pure (some a) : Decoder (Option α)).Reads (encode a) (some a) :=
        (LawfulStored.exact a).last rfl
      exact fun rest => h rest

theorem Exact.prod {a : α} {b : β} (ha : Exact a) (hb : Exact b) : Exact (a, b) :=
  ha.bind (hb.last rfl)

instance [LawfulStored α] [LawfulStored β] : LawfulStored (α × β) where
  exact p := (LawfulStored.exact p.1).prod (LawfulStored.exact p.2)

/-- The number of bytes has to fit a double word. -/
theorem exact_bytes {b : ByteArray} (h : b.size < 0x10000000000000000) : Exact b := by
  refine (LawfulStored.exact (UInt64.ofNat b.size)).bind ?_
  rw [UInt64.toNat_ofNat', Nat.mod_eq_of_lt h]
  exact (reads_take b.data.toList).last rfl

theorem reads_vector [LawfulStored α] {n : Nat} (v : Vector α n) :
    (decodeVector n).Reads (v.toList.flatMap encode) v := by
  induction n with
  | zero =>
    rw [show v = #v[] from Vector.eq_empty]
    exact .pure _
  | succ n ih =>
    rw [← Vector.push_pop_back v, Vector.toList_push, List.flatMap_append, List.flatMap_singleton]
    exact (ih v.pop).bind ((LawfulStored.exact v.back).last rfl)

instance {n : Nat} [LawfulStored α] : LawfulStored (Vector α n) := ⟨reads_vector⟩

theorem reads_choice {i count : Nat} (h : i < count) (hc : count < 0x100000000) :
    (decodeChoice count).Reads (encodeChoice i) i := by
  refine (LawfulStored.exact (UInt32.ofNat i)).last ?_
  have hi : (UInt32.ofNat i).toNat = i := by
    rw [UInt32.toNat_ofNat', Nat.mod_eq_of_lt (Nat.lt_trans h hc)]
  rw [hi, if_pos h]

omit [Stored α] in
/-- A value that can be built again out of its parts is read back with them. -/
theorem lawful_via [LawfulStored β] {parts : α → β} {build : β → α}
    (hb : ∀ a, build (parts a) = a) : @LawfulStored α (.via parts build) := by
  refine @LawfulStored.mk α (.via parts build) fun a => ?_
  have h := (LawfulStored.exact (parts a)).map build
  rwa [hb] at h

end Stored
open Stored

instance : LawfulStored ICache.Line := lawful_via fun _ => rfl
instance : LawfulStored ICache := lawful_via fun _ => rfl
instance : LawfulStored DataArray := lawful_via fun _ => rfl
instance : LawfulStored Biu := lawful_via fun _ => rfl
instance : LawfulStored Caches := lawful_via fun _ => rfl

instance : LawfulStored LoadDelay where
  exact
    | .none => (reads_choice (by decide) (by decide)).last rfl
    | .pending reg value =>
      (reads_choice (by decide) (by decide)).bind
        ((LawfulStored.exact reg).bind ((LawfulStored.exact value).last rfl))

instance : LawfulStored BranchDelay where
  exact
    | .none | .notTaken => (reads_choice (by decide) (by decide)).last rfl
    | .pending target =>
      (reads_choice (by decide) (by decide)).bind ((LawfulStored.exact target).last rfl)

instance : LawfulStored DelaySlots := lawful_via fun _ => rfl
instance : LawfulStored Dcic := lawful_via fun _ => rfl
instance : LawfulStored Status := lawful_via fun _ => rfl
instance : LawfulStored Cause := lawful_via fun _ => rfl
instance : LawfulStored Cop0 := lawful_via fun _ => rfl
instance : LawfulStored RegisterFile := lawful_via fun _ => rfl

instance : LawfulStored MulDivOp where
  exact
    | .mult | .multu | .div | .divu => (reads_choice (by decide) (by decide)).last rfl

instance : LawfulStored MulDivPending := lawful_via fun _ => rfl
instance : LawfulStored MulDivUnit := lawful_via fun _ => rfl
instance : LawfulStored Clock := lawful_via fun _ => rfl
instance : LawfulStored Cpu := lawful_via fun _ => rfl
instance : LawfulStored MemoryControl := lawful_via fun _ => rfl
instance : LawfulStored Interrupt.Controller := lawful_via fun _ => rfl
instance : LawfulStored Serial.Status := lawful_via fun _ => rfl
instance : LawfulStored Serial.Lines := lawful_via fun _ => rfl
instance : LawfulStored Serial.Inputs := lawful_via fun _ => rfl
instance : LawfulStored Serial.Mode := lawful_via fun _ => rfl
instance : LawfulStored Serial.Control := lawful_via fun _ => rfl
instance : LawfulStored Serial.Timer := lawful_via fun _ => rfl
instance : LawfulStored Serial.Port := lawful_via fun _ => rfl
instance : LawfulStored Dma.ChannelControl := lawful_via fun _ => rfl
instance : LawfulStored Dma.Channel := lawful_via fun _ => rfl
instance : LawfulStored Dma.Dicr := lawful_via fun _ => rfl

namespace Savestate

theorem exact_image (s : Savestate) : Exact s.image := by
  refine (LawfulStored.exact s.cpu).prod ((exact_bytes ?_).prod (LawfulStored.exact _))
  rw [s.ram.size_eq]
  decide

theorem ofImage_image (s : Savestate) : ofImage s.image = .ok s := by
  unfold ofImage image Bank.ofBytes?
  dsimp only
  rw [dif_pos s.ram.size_eq]

/-- A savestate is read back from its bytes, whatever follows them. -/
theorem ofBytes_toBytes (s : Savestate) (extra : List UInt8) :
    ofBytes (s.toBytes ++ extra) = .ok s := by
  unfold ofBytes toBytes
  rw [exact_image s extra]
  exact ofImage_image s

end Savestate

namespace Machine
variable {γ δ : Type}

theorem restore_toBytes (m : Machine γ δ) (s : Savestate) (extra : List UInt8) :
    m.restore (s.toBytes ++ extra) = pure (.ok (), m.restored s) := by
  unfold restore
  rw [Savestate.ofBytes_toBytes]
  rfl

theorem restore_saved (m : Machine γ δ) (s : Savestate) :
    m.restore s.toBytes = pure (.ok (), m.restored s) := by
  have h := m.restore_toBytes s []
  rwa [List.append_nil] at h

end Machine
end R3000
