import R3000.Proofs.Closure
import R3000.Proofs.Regions
import R3000.Proofs.SameWord
import R3000.Proofs.SerialSafety

/-! # What an access leaves alone

Nothing that answers an access from outside changes a part of the machine, and no part of the machine
refuses one. So an access that is refused has changed nothing; of the reads that are answered only those
of a data register of a serial port have, which take the character that waits there. -/
namespace R3000

namespace Serial

def dataRegister (i : Fin 2) : UInt32 := 0x1f801040 + 16 * UInt32.ofNat i

/-- A character is taken once. -/
theorem Port.receive_receive (p : Port) : p.receive.receive = p.receive := by
  have h : (p.status.set Status.rxReady false).set Status.rxReady false =
      p.status.set Status.rxReady false := by
    simp only [Status.set, Word.setBit]
    rw [if_neg Bool.false_ne_true, if_neg Bool.false_ne_true, UInt32.and_assoc, UInt32.and_self]
  simp only [receive]
  rw [h]

end Serial

def Record.Commandless (r : Record) : Prop := ∀ c, Act.gteCommand c ∉ r.acts

namespace Record.Commandless
variable {r q : Record}

theorem of_acts (h : r.acts = []) : r.Commandless := fun c hc => by
  rw [h] at hc
  cases hc

theorem append (hr : r.Commandless) (hq : q.Commandless) : (r ++ q).Commandless := fun c hc =>
  (List.mem_append.mp hc).elim (hr c) (hq c)

end Record.Commandless

namespace Bus
variable {δ : Type} {b t u : Bus δ} {taken : Fin 2 → Prop}

/-- The memories and registers of two buses are the same, but that the character that waits in some
ports may have been taken. -/
structure Kept (taken : Fin 2 → Prop) (b t : Bus δ) : Prop where
  ram : t.ram = b.ram
  rom : t.rom = b.rom
  memoryControl : t.memoryControl = b.memoryControl
  int : t.int = b.int
  dma : t.dma = b.dma
  ports : ∀ i, t.serial.port i = b.serial.port i ∨
    taken i ∧ t.serial.port i = (b.serial.port i).receive

theorem Kept.refl (taken : Fin 2 → Prop) (b : Bus δ) : Kept taken b b :=
  ⟨rfl, rfl, rfl, rfl, rfl, fun _ => .inl rfl⟩

theorem Kept.trans (h : Kept taken b t) (k : Kept taken t u) : Kept taken b u := by
  refine ⟨k.ram.trans h.ram, k.rom.trans h.rom, k.memoryControl.trans h.memoryControl,
    k.int.trans h.int, k.dma.trans h.dma, fun i => ?_⟩
  obtain ht | ⟨hi, ht⟩ := h.ports i <;> obtain hu | ⟨_, hu⟩ := k.ports i
  · exact .inl (hu.trans ht)
  · exact .inr ⟨‹_›, hu.trans (by rw [ht])⟩
  · exact .inr ⟨hi, hu.trans ht⟩
  · exact .inr ⟨hi, by rw [hu, ht, Serial.Port.receive_receive]⟩

theorem Kept.mono {taken' : Fin 2 → Prop} (h : Kept taken b t) (hi : ∀ i, taken i → taken' i) :
    Kept taken' b t :=
  ⟨h.ram, h.rom, h.memoryControl, h.int, h.dma, fun i => (h.ports i).imp_right fun k => ⟨hi i k.1, k.2⟩⟩

def kept (taken : Fin 2 → Prop) : Motion (Bus δ) where
  holds b r t := Kept taken b t ∧ r.Commandless
  still b _ := ⟨.refl taken b, .of_acts rfl⟩
  trans h k := ⟨h.1.trans k.1, h.2.append k.2⟩

theorem kept_mono {α : Type} {taken' : Fin 2 → Prop} {x : Bus.Op δ α} (h : Moves (kept taken) x b)
    (hi : ∀ i, taken i → taken' i) : Moves (kept taken') x b :=
  ⟨h.1.mono hi, h.2⟩

/-- A computation that reads a bus and leaves no act. -/
theorem kept_of_acts {r : Record} (hr : r.acts = []) (b : Bus δ) : (kept taken).holds b r b :=
  ⟨.refl taken b, .of_acts hr⟩

theorem deviceRead_kept (addr : UInt32) (w : Width) : Moves (kept taken) (deviceRead addr w) b := by
  refine ⟨⟨rfl, rfl, rfl, rfl, rfl, fun _ => .inl rfl⟩, fun c hc => ?_⟩
  cases List.mem_singleton.mp hc

theorem deviceWrite_kept (addr value : UInt32) (w : Width) :
    Moves (kept taken) (deviceWrite addr value w) b := by
  refine ⟨⟨rfl, rfl, rfl, rfl, rfl, fun _ => .inl rfl⟩, fun c hc => ?_⟩
  cases List.mem_singleton.mp hc

/-- No part of the machine answers. -/
theorem unclaimed_cases {addr : UInt32} (h : unclaimed addr) :
    Region.of addr = .external ∨ ∃ offset, Region.of addr = .io offset ∧ Group.of? offset = none := by
  simp only [unclaimed] at h
  split at h
  · exact .inl ‹_›
  · exact .inr ⟨_, ‹_›, Option.isNone_iff_eq_none.mp h⟩
  · cases h

theorem read_unclaimed {addr : UInt32} (h : unclaimed addr) (w : Width) :
    Moves (kept taken) (read addr w) b := by
  obtain hr | ⟨offset, hr, hg⟩ := unclaimed_cases h <;> unfold read <;> rw [hr]
  · exact deviceRead_kept addr w
  · dsimp only
    simp only [ioRead]
    rw [hg]
    exact deviceRead_kept addr w

theorem write_unclaimed {addr : UInt32} (h : unclaimed addr) (value : UInt32) (w : Width) :
    Moves (kept taken) (write addr value w) b := by
  obtain hr | ⟨offset, hr, hg⟩ := unclaimed_cases h <;> unfold write <;> rw [hr]
  · exact deviceWrite_kept addr value w
  · dsimp only
    simp only [ioWrite]
    rw [hg]
    exact deviceWrite_kept addr value w

/-- Some part of the machine does. -/
theorem claimed_cases {addr : UInt32} (h : ¬unclaimed addr) :
    (∃ offset, Region.of addr = .ram offset) ∨ (∃ offset, Region.of addr = .rom offset) ∨
      ∃ offset g, Region.of addr = .io offset ∧ Group.of? offset = some g := by
  simp only [unclaimed] at h
  cases hr : Region.of addr with
  | ram offset => exact .inl ⟨offset, rfl⟩
  | rom offset => exact .inr (.inl ⟨offset, rfl⟩)
  | io offset =>
    rw [hr] at h
    obtain ⟨g, hg⟩ := Option.ne_none_iff_exists'.mp (mt Option.isNone_iff_eq_none.mpr h)
    exact .inr (.inr ⟨offset, g, rfl, hg⟩)
  | external =>
    rw [hr] at h
    exact absurd rfl h

theorem read_claimed {addr : UInt32} (h : ¬unclaimed addr) (w : Width) (b : Bus δ) :
    ∃ v t, (read addr w b).value = (.ok v, t) := by
  obtain ⟨offset, hr⟩ | ⟨offset, hr⟩ | ⟨offset, g, hr, hg⟩ := claimed_cases h <;> unfold read <;> rw [hr]
  · exact ⟨_, _, rfl⟩
  · exact ⟨_, _, rfl⟩
  · dsimp only
    simp only [ioRead]
    rw [hg]
    exact ⟨_, _, rfl⟩

theorem write_claimed {addr : UInt32} (h : ¬unclaimed addr) (value : UInt32) (w : Width) (b : Bus δ) :
    ∃ t, (write addr value w b).value = (.ok (), t) := by
  obtain ⟨offset, hr⟩ | ⟨offset, hr⟩ | ⟨offset, g, hr, hg⟩ := claimed_cases h <;> unfold write <;> rw [hr]
  · exact ⟨_, rfl⟩
  · exact ⟨_, rfl⟩
  · dsimp only
    simp only [ioWrite]
    rw [hg]
    exact ⟨_, rfl⟩

/-- A read that is refused has changed nothing. -/
theorem read_error {addr : UInt32} {w : Width} {e : BusError} {t : Bus δ}
    (h : (read addr w b).value = (.error e, t)) : Moves (kept taken) (read addr w) b := by
  by_cases hc : unclaimed addr
  · exact read_unclaimed hc w
  · obtain ⟨v, u, hv⟩ := read_claimed hc w b
    rw [hv] at h
    cases h

theorem write_error {addr value : UInt32} {w : Width} {e : BusError} {t : Bus δ}
    (h : (write addr value w b).value = (.error e, t)) : Moves (kept taken) (write addr value w) b := by
  by_cases hc : unclaimed addr
  · exact write_unclaimed hc value w
  · obtain ⟨u, hu⟩ := write_claimed hc value w b
    rw [hu] at h
    cases h

theorem acts_dmaRead (c : Dma.Controller δ) (offset : UInt32) : (c.read offset).record.acts = [] := by
  unfold Dma.Controller.read
  split
  · rfl
  split
  · rfl
  split
  · rfl
  dsimp only
  split
  · split <;> rfl
  · rfl

/-- The data register of a port, and no other register, gives up the character that waits. -/
theorem serialRead_kept (port : Nat) (offset : UInt32) (w : Width) :
    Moves (kept fun i => i.val = port ∧ offset = 0) (serialRead port offset w) b := by
  refine .get_bind (.lift_then rfl ?_)
  unfold Serial.Controller.read
  split
  · dsimp only
    split
    · refine ⟨⟨rfl, rfl, rfl, rfl, rfl, fun i => ?_⟩, .of_acts rfl⟩
      by_cases hi : i.val = port
      · subst hi
        exact .inr ⟨⟨rfl, ‹_›⟩, Vector.getElem_set_self i.isLt⟩
      · exact .inl (Vector.getElem_set_ne ‹_› i.isLt (Ne.symm hi))
    · exact kept_of_acts rfl b
  · exact kept_of_acts rfl b

/-- The registers of a port lie from its data register on. -/
theorem register_of_group {offset reg : UInt32} {i : Fin 2}
    (h : Group.of? offset = some (.serial i reg)) : offset + ioBase = Serial.dataRegister i + reg := by
  have hat := Group.at_of h
  simp only [Group.At] at hat
  have hregister : ∀ i : Fin 2, (Serial.dataRegister i).toNat = ioBase.toNat + 64 + 16 * i.val := by
    decide
  rw [← UInt32.toNat_inj, UInt32.toNat_add, UInt32.toNat_add, hregister]
  omega

theorem dataRegister_of_group {offset reg : UInt32} {i : Fin 2}
    (h : Group.of? offset = some (.serial i reg)) (hreg : reg = 0) :
    offset + ioBase = Serial.dataRegister i := by
  rw [register_of_group h, hreg, UInt32.add_zero]

theorem readGroup_kept {offset : UInt32} {g : Group} (hg : Group.of? offset = some g) (w : Width) :
    Moves (kept fun i => offset + ioBase = Serial.dataRegister i) (readGroup offset w g) b := by
  cases g with
  | memoryControl index => exact .get_bind (.pure _)
  | ramSize => exact .get_bind (.pure _)
  | interrupt index => exact .get_bind (.pure _)
  | serial port reg =>
    refine kept_mono (serialRead_kept port reg w) ?_
    rintro i ⟨rfl, hreg⟩
    exact dataRegister_of_group hg hreg
  | dma reg =>
    refine .bind (.get_bind (.lift (kept_of_acts (acts_dmaRead _ _) _))) fun _ _ _ => .pure _

theorem Region.of_io {addr offset : UInt32} (h : Region.of addr = .io offset) :
    addr - ioBase = offset := by
  simp only [Region.of] at h
  repeat' split at h
  all_goals cases h
  rfl

/-- Reads change nothing else. -/
theorem read_kept (addr : UInt32) (w : Width) :
    Moves (kept fun i => addr = Serial.dataRegister i) (read addr w) b := by
  simp only [read]
  split
  · exact .lift_bind (kept_of_acts (acts_require _ _) b) (.get_bind (.pure _))
  · exact .lift_bind (kept_of_acts (acts_require _ _) b) (.get_bind (.pure _))
  · rename_i offset hr
    refine .bind ?_ fun r s _ => ?_
    · simp only [ioRead]
      split
      · exact .pure _
      · refine .bind (kept_mono (readGroup_kept ‹_› w) fun i hi => ?_) fun _ _ _ =>
          .quiet_bind (.note _) (.pure _)
        rw [← hi, ← Region.of_io hr, UInt32.sub_add_cancel]
    · cases r with
      | some value => exact .pure _
      | none => exact deviceRead_kept addr w
  · exact deviceRead_kept addr w

theorem refill_kept {a : ICache.Address} {ws : List (Fin 4)}
    (hws : ∀ w ∈ ws, ∀ i, a.wordAddr w = Serial.dataRegister i → taken i) (l : ICache.Line) :
    Moves (kept taken) (ICache.refill (fun x => read x .word) a ws l) b := by
  induction ws generalizing l b with
  | nil => exact .pure _
  | cons w ws ih =>
    refine .bind (kept_mono (read_kept _ .word) (hws w List.mem_cons_self)) fun r s _ => ?_
    cases r with
    | error e => exact .pure _
    | ok word => exact ih (fun w hw => hws w (List.mem_cons_of_mem _ hw)) _

/-- A data register starts a line, and so it is read only by a fetch from it. -/
theorem fetchLine_kept (c : ICache) {addr : UInt32} (ha : Width.word.aligned addr) :
    Moves (kept fun i => addr = Serial.dataRegister i) (c.fetch addr fun a => read a .word) b := by
  have hline : ∀ w ∈ ICache.wordsFrom (ICache.Address.of addr).word, ∀ i,
      (ICache.Address.of addr).wordAddr w = Serial.dataRegister i → addr = Serial.dataRegister i := by
    intro w hw i hi
    have hle : addr.toNat / 4 % 4 ≤ w.val := by
      rw [← Nat.shiftRight_eq_div_pow _ 2]
      exact of_decide_eq_true (List.mem_filter.mp hw).2
    have hregister : ∀ i, (Serial.dataRegister i).toNat % 16 = 0 := by decide
    have hi16 := hregister i
    have hword := ICache.Address.toNat_wordAddr addr w
    rw [Width.aligned_iff, show Width.word.bytes = 4 from rfl] at ha
    rw [hi] at hword
    rw [← UInt32.toNat_inj]
    omega
  unfold ICache.fetch
  dsimp only
  split
  · exact .quiet_bind (.note _) (.pure _)
  · refine .quiet_bind (.note _) (.bind (refill_kept hline _) ?_)
    rintro ⟨refused, l⟩ s _
    cases refused <;> exact .pure _

end Bus
end R3000
