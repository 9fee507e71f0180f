import R3000.Proofs.SavestateTransparency
import R3000.Proofs.StoredForms

/-! # Savestates that are cut short

What a decoder has to say of its input it says of any longer input as well, unless it has come to the end of it.
So whatever is left of a stored value whose last bytes are missing, the one thing wrong with it is that it ends too
early, wherever it has been cut. -/
namespace R3000

namespace Decoder
variable {α β : Type} {d : Decoder α} {f : α → Decoder β} {input rest : List UInt8} {a : α} {e : DecodeError}

/-- More input changes nothing, but where the input had come to its end. -/
structure Steady (d : Decoder α) : Prop where
  ok : ∀ {input a rest}, d input = .ok (a, rest) → ∀ more, d (input ++ more) = .ok (a, rest ++ more)
  error : ∀ {input e}, d input = .error e → e ≠ .endOfInput → ∀ more, d (input ++ more) = .error e

theorem bind_ok (h : d input = .ok (a, rest)) (f : α → Decoder β) : (d >>= f) input = f a rest := by
  show (d input >>= fun p => f p.1 p.2) = _
  rw [h]
  rfl

theorem bind_error (h : d input = .error e) (f : α → Decoder β) : (d >>= f) input = .error e := by
  show (d input >>= fun p => f p.1 p.2) = _
  rw [h]
  rfl

namespace Steady

theorem pure (a : α) : Steady (Pure.pure a) where
  ok h more := by
    cases h
    rfl
  error h := nomatch h

theorem throw (e : DecodeError) : Steady (throw e : Decoder α) where
  ok h := nomatch h
  error h _ _ := h

theorem bind (hd : d.Steady) (hf : ∀ a, (f a).Steady) : (d >>= f).Steady where
  ok h more := by
    obtain ⟨a, mid, ha, h⟩ := bind_inv h
    rw [bind_ok (hd.ok ha more)]
    exact (hf a).ok h more
  error {input e} h he more := by
    cases hfirst : d input with
    | error e' =>
      rw [bind_error hfirst] at h
      cases h
      exact bind_error (hd.error hfirst he more) f
    | ok p =>
      rw [bind_ok hfirst] at h
      rw [bind_ok (hd.ok hfirst more)]
      exact (hf p.1).error h he more

theorem map (g : α → β) (hd : d.Steady) : (g <$> d).Steady := by
  rw [← bind_pure_comp]
  exact hd.bind fun _ => pure _

theorem byte : byte.Steady where
  ok {input a rest} h more := by
    cases input with
    | nil => cases h
    | cons b bs =>
      cases h
      rfl
  error {input e} h he := by
    cases input with
    | nil =>
      cases h
      exact absurd rfl he
    | cons b bs => cases h

theorem number (k : Nat) : (number k).Steady := by
  induction k with
  | zero => exact pure 0
  | succ k ih => exact byte.bind fun _ => ih.bind fun _ => pure _

theorem take (n : Nat) : (take n).Steady where
  ok {input a rest} h more := by
    obtain ⟨rfl, rfl⟩ := take_inv h
    rw [List.append_assoc]
    exact reads_take a _
  error {input e} h he := by
    simp only [Decoder.take] at h
    split at h
    · cases h
    · cases h
      exact absurd rfl he

theorem ite {p : Prop} [Decidable p] {d d' : Decoder α} (hd : d.Steady) (hd' : d'.Steady) :
    (if p then d else d').Steady := by
  split
  · exact hd
  · exact hd'

/-- Of what is read to its end, a part that lacks the end is refused for that. -/
theorem cut (hd : d.Steady) {front back : List UInt8} (h : d (front ++ back) = .ok (a, [])) (hback : back ≠ []) :
    d front = .error .endOfInput := by
  cases hfront : d front with
  | ok p =>
    rw [hd.ok hfront back] at h
    have hrest : p.2 ++ back = [] := congrArg Prod.snd (Except.ok.inj h)
    exact absurd (List.append_eq_nil_iff.mp hrest).2 hback
  | error e =>
    by_cases he : e = .endOfInput
    · rw [he]
    · rw [hd.error hfront he back] at h
      cases h

end Steady
end Decoder

/-- The decoder of stored values is steady. -/
class SteadyStored (α : Type) [Stored α] : Prop where
  steady : (Stored.decode : Decoder α).Steady

namespace Stored
variable {α β : Type} [Stored α] [Stored β]
open Decoder

instance : SteadyStored UInt8 := ⟨.byte⟩

instance : SteadyStored UInt16 := ⟨.map _ (.number 2)⟩

instance : SteadyStored UInt32 := ⟨.map _ (.number 4)⟩

instance : SteadyStored UInt64 := ⟨.map _ (.number 8)⟩

instance : SteadyStored Bool where
  steady := .bind .byte fun _ => .ite (.pure _) (.ite (.pure _) (.throw _))

instance [SteadyStored α] : SteadyStored (Option α) where
  steady := .bind .byte fun _ =>
    .ite (.pure _) (.ite (.bind SteadyStored.steady fun _ => .pure _) (.throw _))

instance [SteadyStored α] [SteadyStored β] : SteadyStored (α × β) where
  steady := .bind SteadyStored.steady fun _ => .bind SteadyStored.steady fun _ => .pure _

instance : SteadyStored ByteArray where
  steady := .bind SteadyStored.steady fun n => .bind (.take n.toNat) fun _ => .pure _

instance {n : Nat} [SteadyStored α] : SteadyStored (Vector α n) where
  steady := by
    show (decodeVector n).Steady
    induction n with
    | zero => exact .pure _
    | succ n ih => exact ih.bind fun _ => .bind SteadyStored.steady fun _ => .pure _

theorem steady_choice (count : Nat) : (decodeChoice count).Steady :=
  .bind SteadyStored.steady fun _ => .ite (.pure _) (.throw _)

omit [Stored α] in
theorem steady_via [SteadyStored β] {parts : α → β} {build : β → α} :
    @SteadyStored α (.via parts build) :=
  @SteadyStored.mk α (.via parts build) (.map build SteadyStored.steady)

end Stored
open Stored Decoder

instance : SteadyStored ICache.Line := steady_via
instance : SteadyStored ICache := steady_via
instance : SteadyStored DataArray := steady_via
instance : SteadyStored Biu := steady_via
instance : SteadyStored Caches := steady_via

instance : SteadyStored LoadDelay where
  steady := .bind (steady_choice 2) fun i => by
    split
    · exact .pure _
    · exact .bind SteadyStored.steady fun _ => .bind SteadyStored.steady fun _ => .pure _

instance : SteadyStored BranchDelay where
  steady := .bind (steady_choice 3) fun i => by
    split
    · exact .pure _
    · exact .pure _
    · exact .bind SteadyStored.steady fun _ => .pure _

instance : SteadyStored DelaySlots := steady_via
instance : SteadyStored Dcic := steady_via
instance : SteadyStored Status := steady_via
instance : SteadyStored Cause := steady_via
instance : SteadyStored Cop0 := steady_via
instance : SteadyStored RegisterFile := steady_via

instance : SteadyStored MulDivOp where
  steady := .bind (steady_choice 4) fun i => by split <;> exact .pure _

instance : SteadyStored MulDivPending := steady_via
instance : SteadyStored MulDivUnit := steady_via
instance : SteadyStored Clock := steady_via
instance : SteadyStored Cpu := steady_via
instance : SteadyStored MemoryControl := steady_via
instance : SteadyStored Interrupt.Controller := steady_via
instance : SteadyStored Serial.Status := steady_via
instance : SteadyStored Serial.Lines := steady_via
instance : SteadyStored Serial.Inputs := steady_via
instance : SteadyStored Serial.Mode := steady_via
instance : SteadyStored Serial.Control := steady_via
instance : SteadyStored Serial.Timer := steady_via
instance : SteadyStored Serial.Port := steady_via
instance : SteadyStored Dma.ChannelControl := steady_via
instance : SteadyStored Dma.Channel := steady_via
instance : SteadyStored Dma.Dicr := steady_via

namespace Savestate

theorem ofBytes_cut {front back : List UInt8} {s : Savestate} (h : front ++ back = s.toBytes)
    (hback : back ≠ []) : ofBytes front = .error (.decode .endOfInput) := by
  have hwhole : (Stored.decode : Decoder Image) (front ++ back) = .ok (s.image, []) := by
    have hexact := exact_image s []
    rwa [List.append_nil, show encode s.image = front ++ back from h.symm] at hexact
  have hsteady : (Stored.decode : Decoder Image).Steady := SteadyStored.steady
  unfold ofBytes
  rw [hsteady.cut hwhole hback]

/-- A savestate holds the whole of RAM. -/
theorem ramSize_lt_length (s : Savestate) : ramSize < s.toBytes.length := by
  have hram : s.ram.bytes.data.toList.length = ramSize := s.ram.size_eq
  have hsize : (encode (UInt64.ofNat s.ram.bytes.size)).length = 8 := rfl
  show ramSize < (encode s.cpu ++
    ((encode (UInt64.ofNat s.ram.bytes.size) ++ s.ram.bytes.data.toList) ++ encode s.image.2.2)).length
  simp only [List.length_append]
  omega

end Savestate

namespace Machine
variable {γ δ γ' δ' : Type}

/-- Any machine refuses what is left of a savestate that has been cut short, because its input comes to an end,
and is left as it was. What comes after a savestate makes no difference to what is restored. -/
theorem restore_cut_short (c : Machine γ δ) (d : Machine γ' δ') :
    (∀ input, input <+: c.savestate.toBytes → input ≠ c.savestate.toBytes →
      d.restore input = pure (.error (.decode .endOfInput), d)) ∧
    d.restore c.savestate.toBytes = pure (.ok (), d.restored c.savestate) ∧
    SameState c (d.restored c.savestate) ∧
    ∀ extra, d.restore (c.savestate.toBytes ++ extra) = d.restore c.savestate.toBytes := by
  refine ⟨?_, d.restore_saved _, ⟨rfl, rfl, rfl, rfl, rfl, rfl, rfl, rfl, rfl⟩, fun extra => ?_⟩
  · rintro input ⟨back, h⟩ hne
    have hback : back ≠ [] := by
      rintro rfl
      exact hne (by rw [← h, List.append_nil])
    unfold restore
    rw [Savestate.ofBytes_cut h hback]
    rfl
  · rw [d.restore_toBytes, d.restore_saved]

/-- A savestate that ends amid the contents of RAM. -/
theorem restore_cut_short_bare : bare.savestate.toBytes.take ramSize <+: bare.savestate.toBytes ∧
    bare.savestate.toBytes.take ramSize ≠ bare.savestate.toBytes ∧
    (next bare).value.2.restore (bare.savestate.toBytes.take ramSize) =
      pure (.error (.decode .endOfInput), (next bare).value.2) := by
  have hfront : bare.savestate.toBytes.take ramSize <+: bare.savestate.toBytes := List.take_prefix _ _
  have hcut : bare.savestate.toBytes.take ramSize ≠ bare.savestate.toBytes := by
    have hlength := bare.savestate.ramSize_lt_length
    intro h
    have hsame := congrArg List.length h
    rw [List.length_take] at hsame
    omega
  exact ⟨hfront, hcut, (restore_cut_short bare (next bare).value.2).1 _ hfront hcut⟩

end Machine
end R3000
