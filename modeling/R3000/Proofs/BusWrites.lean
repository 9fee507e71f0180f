import R3000.Proofs.Operands
import R3000.Proofs.UnalignedWords
import R3000.Proofs.Unchanged

/-! # The writes that a store is made of

A store goes to the bus as one aligned write, or as two where it covers three lanes of a word. They carry to
each lane that is stored to, and to no other, its byte of the register; and they all fall into one word, so
that the device at the end of the bus is asked for all of them or for none. -/
namespace R3000

namespace Bus
variable {δ : Type} {b : Bus δ}

structure Write where
  addr : UInt32
  value : UInt32
  width : Width
deriving DecidableEq

namespace Write

def act (w : Write) : Act := .deviceWrite w.addr w.value w.width

def covers (w : Write) (d : Nat) : Bool :=
  (Lane.of w.addr).val ≤ d && d < (Lane.of w.addr).val + w.width.bytes

def byte (w : Write) (d : Nat) : UInt8 := Word.byte w.value (d - Lane.of w.addr)

def into (w : Write) (word : UInt32) : UInt32 := Lane.insert word w.value w.addr w.width

theorem byte_into {w : Write} (h : w.width.aligned w.addr) (word : UInt32) {d : Nat} (hd : d < 4) :
    Word.byte (w.into word) d = if w.covers d then w.byte d else Word.byte word d := by
  have hbits : ∀ i < 8, Word.bit (w.into word) (8 * d + i) =
      if w.covers d then Word.bit w.value (8 * (d - Lane.of w.addr) + i)
      else Word.bit word (8 * d + i) := by
    intro i hi
    rw [into, Lane.bit_insert h _ _ (by omega)]
    simp only [covers, Bool.and_eq_true, decide_eq_true_eq]
    by_cases hc : (Lane.of w.addr).val ≤ d ∧ d < (Lane.of w.addr).val + w.width.bytes
    · have hindex : 8 * d + i - 8 * (Lane.of w.addr).val = 8 * (d - Lane.of w.addr) + i := by omega
      rw [if_pos (by omega), if_pos hc, hindex]
    · rw [if_neg (by omega), if_neg hc]
  split
  · exact Word.byte_eq_byte hd (by omega) fun i hi => (hbits i hi).trans (if_pos ‹_›)
  · exact Word.byte_eq_byte hd hd fun i hi => (hbits i hi).trans (if_neg ‹_›)

end Write

def writes : List Write → Bus.Op δ (Except BusError Unit)
  | [] => return .ok ()
  | w :: ws => do
    match ← write w.addr w.value w.width with
    | .error e => return .error e
    | .ok () => writes ws

theorem writes_cons_ok {w : Write} {t : Bus δ} (h : (write w.addr w.value w.width b).value = (.ok (), t))
    (ws : List Write) : writes (w :: ws) b =
      ⟨(writes ws t).value, (write w.addr w.value w.width b).record ++ (writes ws t).record⟩ := by
  rw [writes, bind_of_value h]

theorem writes_cons_error {w : Write} {e : BusError} {t : Bus δ}
    (h : (write w.addr w.value w.width b).value = (.error e, t)) (ws : List Write) :
    writes (w :: ws) b = ⟨(.error e, t), (write w.addr w.value w.width b).record⟩ := by
  rw [writes, bind_of_value h]
  exact Reported.eq_of rfl (Record.append_empty _)

theorem writes_singleton (w : Write) (b : Bus δ) :
    (writes [w] b).value = (write w.addr w.value w.width b).value ∧
      (writes [w] b).record.acts = (write w.addr w.value w.width b).record.acts := by
  cases h : (write w.addr w.value w.width b).value with
  | mk r t =>
    cases r with
    | ok _ =>
      rw [writes_cons_ok h]
      exact ⟨rfl, List.append_nil _⟩
    | error e =>
      rw [writes_cons_error h]
      exact ⟨rfl, rfl⟩

theorem write_eq_deviceWrite {addr : UInt32} (h : unclaimed addr) (value : UInt32) (w : Width)
    (b : Bus δ) : write addr value w b = deviceWrite addr value w b := by
  obtain hr | ⟨offset, hr, hg⟩ := unclaimed_cases h <;> unfold write <;> rw [hr]
  dsimp only
  simp only [ioWrite]
  rw [hg]
  rfl

end Bus

namespace Device
variable {δ : Type} {d : Device δ}

/-- Of the writes that the device is asked for it takes some, and then refuses one. These are the acts, and
this is the state that it ends in. -/
inductive Refuses (d : Device δ) : List Bus.Write → List Bus.Write → δ → List Act → δ → Prop
  | now {w : Bus.Write} {ws : List Bus.Write} {s t : δ} {e : BusError} :
      d.write w.addr w.value w.width s = (.error e, t) → Refuses d (w :: ws) [] s [w.act] t
  | later {w : Bus.Write} {ws taken : List Bus.Write} {s t u : δ} {acts : List Act} :
      d.write w.addr w.value w.width s = (.ok (), t) → Refuses d ws taken t acts u →
      Refuses d (w :: ws) (w :: taken) s (w.act :: acts) u

/-- The one that is refused comes next. -/
theorem Refuses.next {ws taken : List Bus.Write} {s t : δ} {acts : List Act}
    (h : d.Refuses ws taken s acts t) : ∃ w rest, ws = taken ++ w :: rest := by
  induction h with
  | now => exact ⟨_, _, rfl⟩
  | later _ _ ih =>
    obtain ⟨w, rest, rfl⟩ := ih
    exact ⟨w, rest, rfl⟩

end Device

namespace Bus
variable {δ : Type} {b : Bus δ} {w : Write} {ws : List Write}

/-- A write to the device that nothing else answers. -/
theorem write_outside (hc : unclaimed w.addr) {r : Except BusError Unit} {s : δ}
    (h : b.device.write w.addr w.value w.width b.outside = (r, s)) :
    (write w.addr w.value w.width b).value = (r, { b with outside := s }) ∧
      (write w.addr w.value w.width b).record.acts = [w.act] := by
  rw [write_eq_deviceWrite hc]
  refine ⟨?_, rfl⟩
  show ((b.device.write w.addr w.value w.width b.outside).1,
    { b with outside := (b.device.write w.addr w.value w.width b.outside).2 }) = _
  rw [h]

/-- No part of the machine refuses a write. -/
theorem writes_claimed (hc : ∀ w ∈ ws, ¬unclaimed w.addr) (b : Bus δ) :
    ∃ t, (writes ws b).value = (.ok (), t) := by
  induction ws generalizing b with
  | nil => exact ⟨b, rfl⟩
  | cons w ws ih =>
    obtain ⟨t, ht⟩ := write_claimed (hc w List.mem_cons_self) w.value w.width b
    obtain ⟨u, hu⟩ := ih (fun v hv => hc v (List.mem_cons_of_mem w hv)) t
    exact ⟨u, by rw [writes_cons_ok ht, hu]⟩

theorem writes_outside (hc : ∀ w ∈ ws, unclaimed w.addr) {e : BusError} {t : Bus δ}
    (h : (writes ws b).value = (.error e, t)) :
    ∃ taken, b.device.Refuses ws taken b.outside (writes ws b).record.acts t.outside := by
  induction ws generalizing b with
  | nil => cases h
  | cons w ws ih =>
    cases hv : b.device.write w.addr w.value w.width b.outside with
    | mk r s =>
      obtain ⟨hvalue, hacts⟩ := write_outside (hc w List.mem_cons_self) hv
      cases r with
      | error e' =>
        rw [writes_cons_error hvalue] at h ⊢
        cases h
        rw [hacts]
        exact ⟨[], .now hv⟩
      | ok _ =>
        rw [writes_cons_ok hvalue] at h ⊢
        rw [Record.acts_append, hacts]
        obtain ⟨taken, hrest⟩ := ih (fun v hv => hc v (List.mem_cons_of_mem w hv)) h
        exact ⟨w :: taken, .later hv hrest⟩

/-- Writes into one word all go to the device, or none does. So if one is refused, the device has refused
it. -/
theorem writes_refused {word : UInt32} (hword : ∀ w ∈ ws, Lane.base w.addr = word)
    {e : BusError} {t : Bus δ} (h : (writes ws b).value = (.error e, t)) :
    ∃ taken, b.device.Refuses ws taken b.outside (writes ws b).record.acts t.outside := by
  have hclaim : ∀ w ∈ ws, unclaimed w.addr = unclaimed word := fun w hw => by
    rw [← hword w hw, unclaimed_base]
  by_cases hc : unclaimed word
  · exact writes_outside (fun w hw => (hclaim w hw).trans hc) h
  · obtain ⟨u, hu⟩ := writes_claimed (fun w hw => hclaim w hw ▸ hc) b
    rw [hu] at h
    cases h

/-- Aligned writes into one word that carry to some of its lanes a byte each, and to no lane twice. -/
structure Spread (word : UInt32) (lanes : Nat → Bool) (byte : Nat → UInt8) (ws : List Write) : Prop where
  aligned : ∀ w ∈ ws, w.width.aligned w.addr
  within : ∀ w ∈ ws, Lane.base w.addr = word
  once : ∀ d < 4, ws.countP (·.covers d) = if lanes d then 1 else 0
  carried : ∀ w ∈ ws, ∀ d < 4, w.covers d → w.byte d = byte d

def pieceWrites (vaddr value : UInt32) (pieces : List (UInt32 × Width)) : List Write :=
  pieces.map fun p => ⟨translate (Lane.base vaddr + p.1), value >>> (8 * p.1), p.2⟩

/-- What is carried matters for the lanes that are covered alone. -/
theorem Spread.congr {word : UInt32} {lanes : Nat → Bool} {byte byte' : Nat → UInt8}
    (h : Spread word lanes byte ws) (hbyte : ∀ d < 4, lanes d → byte d = byte' d) :
    Spread word lanes byte' ws := by
  refine ⟨h.aligned, h.within, h.once, fun w hw d hd hc => (h.carried w hw d hd hc).trans (hbyte d hd ?_)⟩
  have hpos : 0 < ws.countP (·.covers d) := List.countP_pos_iff.mpr ⟨w, hw, hc⟩
  rw [h.once d hd] at hpos
  split at hpos
  · assumption
  · exact absurd hpos (Nat.lt_irrefl 0)

theorem Spread.single {w : Write} (h : w.width.aligned w.addr) :
    Spread (Lane.base w.addr) w.covers w.byte [w] := by
  refine ⟨?_, ?_, fun d _ => List.countP_singleton, ?_⟩
  · exact List.forall_mem_singleton.mpr h
  · exact List.forall_mem_singleton.mpr rfl
  · exact List.forall_mem_singleton.mpr fun _ _ _ => rfl

/-- The lanes that one of them covers. -/
theorem Spread.any_covers {word : UInt32} {lanes : Nat → Bool} {byte : Nat → UInt8}
    (h : Spread word lanes byte ws) {d : Nat} (hd : d < 4) : ws.any (·.covers d) = lanes d := by
  have honce := h.once d hd
  rw [Bool.eq_iff_iff, List.any_eq_true]
  show (∃ w ∈ ws, w.covers d) ↔ _
  rw [← List.countP_pos_iff, honce]
  cases lanes d <;> simp

/-- Where all of them are done to one word, the lanes that they cover have what they carry. -/
theorem Spread.byte_foldl {word : UInt32} {lanes : Nat → Bool} {byte : Nat → UInt8}
    (h : Spread word lanes byte ws) (v : UInt32) {d : Nat} (hd : d < 4) :
    Word.byte (ws.foldl (fun v w => w.into v) v) d = if lanes d then byte d else Word.byte v d := by
  have hfold : ∀ v, Word.byte (ws.foldl (fun v w => w.into v) v) d =
      if ∃ w ∈ ws, w.covers d then byte d else Word.byte v d := by
    have haligned := h.aligned
    have hcarried := fun w hw => h.carried w hw d hd
    clear h
    induction ws with
    | nil => exact fun v => (if_neg (by simp)).symm
    | cons w ws ih =>
      intro v
      rw [List.foldl_cons, ih (fun u hu => haligned u (List.mem_cons_of_mem w hu))
        (fun u hu => hcarried u (List.mem_cons_of_mem w hu)),
        Write.byte_into (haligned w List.mem_cons_self) v hd]
      by_cases hrest : ∃ u ∈ ws, u.covers d
      · simp [hrest]
      by_cases hfirst : w.covers d
      · simp [hrest, hfirst, hcarried w List.mem_cons_self hfirst]
      · simp [hrest, hfirst]
  rw [hfold v, ← h.any_covers hd]
  simp only [List.any_eq_true]

section Pieces
variable {l : Fin 4} {p : UInt32 × Width} (hp : p ∈ Lane.upTo l ++ Lane.onward l) (vaddr : UInt32)
include hp

theorem lane_piece : (Lane.of (translate (Lane.base vaddr + p.1))).val = p.1.toNat := by
  have hlane : ∀ l : Fin 4, ∀ p ∈ Lane.upTo l ++ Lane.onward l, p.1.toNat < 4 := by decide
  have h := hlane l p hp
  simp only [Lane.of]
  rw [toNat_translate_mod, UInt32.toNat_add, Lane.toNat_base]
  omega

theorem base_piece : Lane.base (translate (Lane.base vaddr + p.1)) = Lane.base (translate vaddr) := by
  rw [← translate_base, Lane.base_add_piece hp, translate_base]

end Pieces

theorem spread_pieces {l : Fin 4} {pieces : List (UInt32 × Width)}
    (hp : ∀ p ∈ pieces, p ∈ Lane.upTo l ++ Lane.onward l) {lanes : Nat → Bool}
    (honce : ∀ d < 4, pieces.countP (fun p => p.1.toNat ≤ d && d < p.1.toNat + p.2.bytes) =
      if lanes d then 1 else 0) (vaddr value : UInt32) :
    Spread (Lane.base (translate vaddr)) lanes (Word.byte value) (pieceWrites vaddr value pieces) := by
  have hshift : ∀ l : Fin 4, ∀ p ∈ Lane.upTo l ++ Lane.onward l, 8 * p.1 = UInt32.ofNat (8 * p.1.toNat) := by
    decide
  refine ⟨?_, ?_, fun d hd => ?_, ?_⟩
  · simp only [pieceWrites, List.forall_mem_map]
    exact fun p hm => translate_aligned (Width.aligned_add_piece (Width.word_aligned_base vaddr) (hp p hm))
  · simp only [pieceWrites, List.forall_mem_map]
    exact fun p hm => base_piece (hp p hm) vaddr
  · rw [← honce d hd, pieceWrites, List.countP_map]
    refine List.countP_congr fun p hm => ?_
    simp only [Function.comp_apply, Write.covers, lane_piece (hp p hm)]
  · simp only [pieceWrites, List.forall_mem_map]
    intro p hm d hd hc
    simp only [Write.covers, lane_piece (hp p hm), Bool.and_eq_true, decide_eq_true_eq] at hc
    simp only [Write.byte, lane_piece (hp p hm)]
    have hindex : p.1.toNat + (d - p.1.toNat) = d := by omega
    have hbyte := Word.byte_shiftRight_bytes value (l := p.1.toNat) (k := d - p.1.toNat) (by omega)
    rwa [hindex, ← hshift l p (hp p hm)] at hbyte

end Bus

namespace Store

def writes (op : Store) (vaddr value : UInt32) : List Bus.Write :=
  let shift := UInt32.ofNat (8 * Lane.of vaddr)
  match op with
  | .sb => [⟨translate vaddr, value, .byte⟩]
  | .sh => [⟨translate vaddr, value, .half⟩]
  | .sw => [⟨translate vaddr, value, .word⟩]
  | .swl => Bus.pieceWrites vaddr (value >>> (24 - shift)) (Lane.upTo (Lane.of vaddr))
  | .swr => Bus.pieceWrites vaddr (value <<< shift) (Lane.onward (Lane.of vaddr))

def width : Store → Width
  | .sb => .byte
  | .sh => .half
  | .sw | .swl | .swr => .word

/-- A store of part of a word takes any address. -/
def aligned (op : Store) (vaddr : UInt32) : Bool :=
  match op with
  | .swl | .swr => true
  | _ => op.width.aligned vaddr

/-- A store at a lane covers another lane of the word. -/
def covers (op : Store) (lane : Fin 4) (d : Nat) : Bool :=
  match op with
  | .swl => d ≤ lane.val
  | .swr => lane.val ≤ d
  | _ => lane.val ≤ d && d < lane.val + op.width.bytes

/-- The byte of the register that a store at a lane carries to another. -/
def byte (op : Store) (lane : Fin 4) (value : UInt32) (d : Nat) : UInt8 :=
  match op with
  | .swl => Word.byte value (d + 3 - lane)
  | _ => Word.byte value (d - lane)

/-- The writes of a store are one for each lane that it covers, and for no other. -/
theorem spread {op : Store} {vaddr : UInt32} (h : op.aligned vaddr) (value : UInt32) :
    Bus.Spread (Lane.base (translate vaddr)) (op.covers (Lane.of vaddr)) (op.byte (Lane.of vaddr) value)
      (op.writes vaddr value) := by
  have hlane : Lane.of (translate vaddr) = Lane.of vaddr := Fin.ext (toNat_translate_mod vaddr)
  have honce : ∀ l : Fin 4, ∀ d < 4,
      (Lane.upTo l).countP (fun p => p.1.toNat ≤ d && d < p.1.toNat + p.2.bytes) =
        (if covers .swl l d then 1 else 0) ∧
      (Lane.onward l).countP (fun p => p.1.toNat ≤ d && d < p.1.toNat + p.2.bytes) =
        if covers .swr l d then 1 else 0 := by
    decide
  cases op with
  | sb | sh | sw =>
    rw [← hlane]
    exact Bus.Spread.single (w := ⟨translate vaddr, value, _⟩) (translate_aligned h)
  | swl =>
    refine (Bus.spread_pieces (fun p hm => List.mem_append_left _ hm) (fun d hd => (honce _ d hd).1) vaddr
      _).congr fun d _ hd => ?_
    exact Word.byte_shiftRight value _ (of_decide_eq_true hd)
  | swr =>
    refine (Bus.spread_pieces (fun p hm => List.mem_append_right _ hm) (fun d hd => (honce _ d hd).2) vaddr
      _).congr fun d hd h => ?_
    exact Word.byte_shiftLeft value _ hd (of_decide_eq_true h)

variable (vaddr value : UInt32)

theorem within_writes (op : Store) :
    ∀ w ∈ op.writes vaddr value, Lane.base w.addr = Lane.base (translate vaddr) := by
  cases op with
  | sb | sh | sw =>
    intro w hw
    rw [List.mem_singleton.mp hw]
  | swl | swr => exact (spread rfl value).within

/-- A store that goes out in two writes, which is one of three lanes. -/
def splits (op : Store) : Bool :=
  op = .swl && (Lane.of vaddr).val = 2 || op = .swr && (Lane.of vaddr).val = 1

theorem length_writes (op : Store) : (op.writes vaddr value).length = if op.splits vaddr then 2 else 1 := by
  have hleft : ∀ l : Fin 4, (Lane.upTo l).length = if l.val = 2 then 2 else 1 := by decide
  have hright : ∀ l : Fin 4, (Lane.onward l).length = if l.val = 1 then 2 else 1 := by decide
  cases op with
  | sb | sh | sw => rfl
  | swl => simp [writes, Bus.pieceWrites, splits, hleft]
  | swr => simp [writes, Bus.pieceWrites, splits, hright]

/-- Before one of the writes is refused, none or the first of two has been taken. -/
theorem taken_writes {op : Store} {taken : List Bus.Write}
    (h : ∃ w rest, op.writes vaddr value = taken ++ w :: rest) :
    taken = [] ∨
      op.splits vaddr ∧ ∃ first second, taken = [first] ∧ op.writes vaddr value = [first, second] := by
  obtain ⟨w, rest, hwrites⟩ := h
  have hlength := op.length_writes vaddr value
  rw [hwrites, List.length_append, List.length_cons] at hlength
  match taken, hlength with
  | [], _ => exact .inl rfl
  | [first], hlength =>
    split at hlength
    · obtain rfl : rest = [] := List.length_eq_zero_iff.mp (by simp at hlength; omega)
      exact .inr ⟨‹_›, first, w, rfl, hwrites⟩
    · simp at hlength
  | _ :: _ :: _, hlength =>
    simp only [List.length_cons] at hlength
    split at hlength <;> omega

end Store

end R3000
