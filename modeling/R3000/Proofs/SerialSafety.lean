import R3000.Serial
import R3000.Proofs.InterruptOrder

/-! # Serial ports in good order

A running bit clock is never due and has a period to reload; the bits of a character sent and those
of the one received in the meantime make up at most eight, and between characters none is half
received. Every operation of a port keeps this, and in that order none of them leaves a fault. -/
namespace R3000.Serial

def Timer.WellFormed (t : Timer) : Prop := ∀ r, t.remaining = some r → 0 < r ∧ 0 < t.period

namespace Timer
variable {t : Timer}

theorem wellFormed_setPeriod (h : t.WellFormed) (period : UInt32) :
    (t.setPeriod period).WellFormed := by
  intro r hr
  unfold setPeriod at *
  by_cases hp : period = 0
  · simp [hp] at hr
  · rw [if_neg hp] at hr
    exact ⟨(h r hr).1, UInt32.pos_iff_ne_zero.mpr hp⟩

theorem wellFormed_start (h : t.WellFormed) (period : UInt32) : (t.start period).WellFormed := by
  intro r hr
  unfold start at *
  by_cases hp : period = 0
  · simp [hp] at hr
  · have hpos := UInt32.pos_iff_ne_zero.mpr hp
    rw [if_neg hp, Option.some.injEq] at hr
    subst hr
    refine ⟨?_, hpos⟩
    cases hr : t.remaining with
    | none => exact hpos
    | some r => exact (h r hr).1

theorem wellFormed_stop (t : Timer) : t.stop.WellFormed := nofun

theorem advance_pos (h : t.WellFormed) {r : UInt32} (hr : t.remaining = some r) (cycles : UInt32) :
    0 < if cycles < r then r - cycles else t.period - (cycles - r) % t.period := by
  obtain ⟨hpos, hperiod⟩ := h r hr
  split
  · rw [UInt32.lt_iff_toNat_lt] at *
    rw [UInt32.toNat_sub_of_le _ _ (UInt32.le_of_lt (UInt32.lt_iff_toNat_lt.mpr ‹_›))]
    exact Nat.sub_pos_of_lt ‹_›
  · have hmod : (cycles - r) % t.period < t.period := UInt32.mod_lt _ hperiod
    rw [UInt32.lt_iff_toNat_lt, UInt32.toNat_sub_of_le _ _ (UInt32.le_of_lt hmod)]
    exact Nat.sub_pos_of_lt (UInt32.lt_iff_toNat_lt.mp hmod)

theorem wellFormed_advance (h : t.WellFormed) (cycles : UInt32) : (t.advance cycles).WellFormed := by
  simp only [advance]
  split
  · exact h
  · rintro r' hr'
    cases hr'
    exact ⟨advance_pos h ‹_› cycles, (h _ ‹_›).2⟩

theorem reloads_of_wellFormed (h : t.WellFormed) (cycles : UInt32) : t.reloads cycles := by
  simp only [reloads]
  cases hr : t.remaining with
  | none => simp
  | some r =>
    have := (UInt32.pos_iff_ne_zero.mp (h r hr).2)
    simp [this]

theorem countable_of_wellFormed (h : t.WellFormed) (cycles : UInt32) : t.countable cycles := by
  simp only [countable]
  have : t.remaining ≠ some 0 := fun hr => absurd (h 0 hr).1 (by decide)
  simp [this]

end Timer

/-- The bits of the characters under way: what is still to be sent and what has been received. -/
structure Port.WellFormed (p : Port) : Prop where
  timer : p.timer.WellFormed
  bits : p.txBits.toNat + p.rxBits.toNat ≤ 8
  idle : p.txBits = 0 → p.rxBits = 0

namespace Port
variable {p q : Port}

theorem wellFormed_idle : ({} : Port).WellFormed := ⟨nofun, by decide, fun _ => rfl⟩

/-- Only the bit clock and the counts of bits matter. -/
theorem WellFormed.congr (h : p.WellFormed) (ht : q.timer.WellFormed) (hs : q.txBits = p.txBits)
    (hr : q.rxBits = p.rxBits) : q.WellFormed :=
  ⟨ht, by rw [hs, hr]; exact h.bits, by rw [hs, hr]; exact h.idle⟩

theorem wellFormed_ite (c : Prop) [Decidable c] (hp : p.WellFormed) (hq : q.WellFormed) :
    (if c then p else q).WellFormed := by
  split
  · exact hp
  · exact hq

theorem wellFormed_drive (h : p.WellFormed) (lines : Lines) : (p.drive lines).port.WellFormed := by
  simp only [drive]
  split
  · exact h
  · exact h.congr h.timer rfl rfl

theorem kick_safe (h : p.WellFormed) : p.kick.Ensures WellFormed := by
  have hw : WellFormed { p with timer := p.timer.start p.period } :=
    h.congr (Timer.wellFormed_start h.timer _) rfl rfl
  unfold kick
  split
  · dsimp only
    split
    · exact .note_bind (.pure hw)
    · exact .pure hw
  · exact .pure h

theorem transmit_safe (h : p.WellFormed) (value : UInt8) :
    (p.transmit value).Ensures WellFormed := by
  have hk := kick_safe (p := { p with
    txData := value
    status := (p.status.set Status.txReady false).set Status.txEmpty false })
    (h.congr h.timer rfl rfl)
  unfold transmit
  dsimp only
  split
  · exact .note_bind hk
  · exact hk

theorem wellFormed_receive (h : p.WellFormed) : p.receive.WellFormed := h.congr h.timer rfl rfl

theorem wellFormed_writeMode (h : p.WellFormed) (value : UInt16) : (p.writeMode value).WellFormed :=
  h.congr (Timer.wellFormed_setPeriod h.timer _) rfl rfl

theorem wellFormed_writeBaud (h : p.WellFormed) (value : UInt16) : (p.writeBaud value).WellFormed :=
  h.congr (Timer.wellFormed_setPeriod h.timer _) rfl rfl

theorem wellFormed_reset (p : Port) : p.reset.port.WellFormed := by
  refine wellFormed_drive ?_ _
  exact wellFormed_idle.congr wellFormed_idle.timer rfl rfl

theorem wellFormed_acknowledge (h : p.WellFormed) : p.acknowledge.WellFormed :=
  h.congr h.timer rfl rfl

theorem writeControl_safe (h : p.WellFormed) (value : UInt16) :
    (p.writeControl value).Ensures fun r => r.port.WellFormed := by
  unfold writeControl
  dsimp only
  split
  · exact .note_bind (.pure (wellFormed_reset p))
  generalize hq : (if (⟨value⟩ : Control).iack then p.acknowledge else p) = q
  have hw : q.WellFormed := by
    subst hq
    split
    · exact wellFormed_acknowledge h
    · exact h
  generalize hr : Port.drive _ _ = r
  have hd : r.port.WellFormed := by
    subst hr
    refine wellFormed_drive ?_ _
    exact hw.congr hw.timer rfl rfl
  split
  · exact (kick_safe hd).bind fun p hp => .pure hp
  split
  · exact .pure hd
  · exact .pure (hd.congr (Timer.wellFormed_stop _) rfl rfl)

theorem wellFormed_input (h : p.WellFormed) (mask levels : UInt32) :
    (p.input mask levels).port.WellFormed := by
  unfold input
  dsimp only
  split <;> exact h.congr h.timer rfl rfl

theorem toNat_charLen_le (m : Mode) : m.charLen.toNat ≤ 3 := by
  simp only [Mode.charLen, Word.field]
  rw [UInt32.toNat_and]
  exact Nat.and_le_right

theorem toNat_bitsPerChar (m : Mode) : m.bitsPerChar.toNat = m.charLen.toNat + 5 := by
  have h := toNat_charLen_le m
  have h5 : (5 : UInt8).toNat = 5 := rfl
  simp only [Mode.bitsPerChar]
  rw [UInt8.toNat_add, UInt32.toNat_toUInt8]
  omega

theorem bitsPerChar_bounds (m : Mode) : 5 ≤ m.bitsPerChar.toNat ∧ m.bitsPerChar.toNat ≤ 8 := by
  have h := toNat_charLen_le m
  rw [toNat_bitsPerChar]
  omega

theorem shifting_iff (p : Port) : p.shifting ↔ 0 < p.txBits.toNat := by
  simp only [shifting]
  rw [bne_iff_ne, ne_eq, ← UInt8.toNat_inj, UInt8.toNat_zero]
  omega

theorem txBits_of_not_shifting (h : ¬p.shifting) : p.txBits = 0 := by
  rw [shifting_iff] at h
  exact UInt8.toNat_inj.mp (Nat.eq_zero_of_not_pos h)

/-- A loaded character has bits to send, and there is room for as many received ones. -/
theorem loadChar_spec (h : p.WellFormed) (hq : p.loadChar = some q) :
    q.WellFormed ∧ 0 < q.txBits.toNat ∧ q.timer = p.timer := by
  simp only [loadChar] at hq
  split at hq
  · cases hq
    exact ⟨h, p.shifting_iff.mp ‹_›, rfl⟩
  split at hq
  · cases hq
    have hn := bitsPerChar_bounds p.mode
    have hr := h.idle (txBits_of_not_shifting ‹_›)
    refine ⟨⟨h.timer, ?_, fun _ => hr⟩, Nat.lt_of_lt_of_le (by decide) hn.1, rfl⟩
    show p.mode.bitsPerChar.toNat + p.rxBits.toNat ≤ 8
    rw [hr]
    exact hn.2
  · cases hq

theorem shiftBit_counts (p : Port) :
    p.shiftBit.port.txBits = p.txBits - 1 ∧ p.shiftBit.port.rxBits = p.rxBits + 1 ∧
      p.shiftBit.port.timer = p.timer := by
  unfold shiftBit drive
  dsimp only
  split <;> exact ⟨rfl, rfl, rfl⟩

/-- A bit less to send is a bit more received. -/
theorem shiftBit_bits (h : p.WellFormed) (hp : 0 < p.txBits.toNat) :
    p.shiftBit.port.txBits.toNat + p.shiftBit.port.rxBits.toNat ≤ 8 := by
  obtain ⟨htx, hrx, -⟩ := shiftBit_counts p
  have hbits := h.bits
  have hone : (1 : UInt8).toNat = 1 := rfl
  have hle : (1 : UInt8) ≤ p.txBits := UInt8.le_iff_toNat_le.mpr hp
  rw [htx, hrx, UInt8.toNat_sub_of_le _ _ hle, UInt8.toNat_add]
  omega

theorem wellFormed_finishChar (ht : p.timer.WellFormed) (hs : ¬p.shifting) :
    p.finishChar.WellFormed := by
  refine ⟨ht, ?_, fun _ => rfl⟩
  show p.txBits.toNat + 0 ≤ 8
  rw [txBits_of_not_shifting hs]
  decide

theorem tick_safe (h : p.WellFormed) :
    p.tick.Ensures fun r => r.1.port.WellFormed ∧ r.1.port.timer = p.timer := by
  unfold tick
  split
  · exact .pure ⟨h, rfl⟩
  rename_i q hq
  obtain ⟨hw, hpos, htimer⟩ := loadChar_spec h hq
  have hr : q.rxBits.toNat < 8 := by have := hw.bits; omega
  have ht : q.shiftBit.port.timer = p.timer := (shiftBit_counts q).2.2.trans htimer
  refine .require_bind ?_ (.require_bind ?_ ?_)
  · simp [UInt8.lt_iff_toNat_lt, hr]
  · simpa [UInt8.lt_iff_toNat_lt] using Nat.lt_trans hr (by decide)
  dsimp only
  split
  · refine .pure ⟨⟨ht ▸ h.timer, shiftBit_bits hw hpos, fun h0 => ?_⟩, ht⟩
    have hs := (shifting_iff _).mp ‹_›
    rw [show q.shiftBit.port.txBits = 0 from h0] at hs
    exact absurd hs (by decide)
  · have hf := wellFormed_finishChar (ht ▸ h.timer) ‹_›
    split
    · exact .pure ⟨hf.congr hf.timer rfl rfl, ht⟩
    · exact .pure ⟨hf, ht⟩

theorem ticks_safe (n : Nat) (h : p.WellFormed) :
    (ticks n p).Ensures fun r => r.port.WellFormed := by
  induction n generalizing p with
  | zero => exact .pure h
  | succ n ih =>
    refine (tick_safe h).bind fun ⟨r, more⟩ hr => ?_
    cases more with
    | true => exact (ih hr.1).bind fun s hs => .pure hs
    | false => exact .pure (hr.1.congr (Timer.wellFormed_stop _) rfl rfl)

theorem update_safe (h : p.WellFormed) (cycles : UInt32) :
    (p.update cycles).Ensures fun r => r.port.WellFormed :=
  .require_bind (Timer.reloads_of_wellFormed h.timer cycles)
    (.require_bind (Timer.countable_of_wellFormed h.timer cycles)
      (ticks_safe _ (h.congr (Timer.wellFormed_advance h.timer cycles) rfl rfl)))

end Port

namespace Controller
variable {δ : Type} {c : Controller δ}

def WellFormed (c : Controller δ) : Prop := ∀ i, (c.port i).WellFormed

theorem wellFormed_setPort {p : Port} (h : c.WellFormed) (hp : p.WellFormed) (i : Fin 2) :
    (c.setPort i p).WellFormed := by
  intro j
  by_cases hij : i = j
  · rw [← hij, port_setPort_self]
    exact hp
  · rw [port_setPort_of_ne c hij]
    exact h j

theorem wellFormed_idle (h : c.ports = Vector.replicate 2 {}) : c.WellFormed := by
  intro i
  have hport : c.port i = {} := by
    simp only [port]
    rw [h]
    exact Vector.getElem_replicate i.isLt
  rw [hport]
  exact Port.wellFormed_idle

theorem faults_tell (c : Controller δ) (i : Fin 2) (driven : List Lines) (outside : δ) :
    (c.tell i driven outside).record.faults = [] := by
  simp only [tell]
  split
  · rfl
  · induction driven generalizing outside with
    | nil => rfl
    | cons l ls ih =>
      rw [List.foldlM_cons, Reported.record_bind, Record.faults_append, ih]
      rfl

structure Safe {α : Type} (x : Reported α) (ctl : α → Controller δ) : Prop where
  faults : x.record.faults = []
  wellFormed : (ctl x.value).WellFormed

theorem Safe.bind {α β : Type} {x : Reported α} {f : α → Reported β} {ctl : α → Controller δ}
    {ctl' : β → Controller δ} (hx : Safe x ctl) (hf : ∀ a, (ctl a).WellFormed → Safe (f a) ctl') :
    Safe (x >>= f) ctl' := by
  have hf := hf x.value hx.wellFormed
  refine ⟨?_, hf.wellFormed⟩
  rw [Reported.record_bind, Record.faults_append, hx.faults, hf.faults]
  rfl

theorem settle_safe {r : Reaction} (h : c.WellFormed) (hr : r.port.WellFormed) (i : Fin 2)
    (int : Interrupt.Controller) (outside : δ) : Safe (c.settle i r int outside) (·.1) where
  faults := by
    simp only [settle]
    rw [Reported.record_bind, Reported.record_bind, Record.faults_append, Record.faults_append,
      faults_tell, (int.quiet_raiseTimes _ _).faults]
    rfl
  wellFormed := wellFormed_setPort h hr i

theorem settle_bind_safe {x : Reported Reaction} (h : c.WellFormed)
    (hx : x.Ensures fun r => r.port.WellFormed) (i : Fin 2) (int : Interrupt.Controller)
    (outside : δ) : Safe (do c.settle i (← x) int outside) (·.1) where
  faults := by
    rw [Reported.record_bind, Record.faults_append, hx.quiet.faults,
      (settle_safe h hx.value i int outside).faults]
    rfl
  wellFormed := (settle_safe h hx.value i int outside).wellFormed

theorem input_safe (h : c.WellFormed) (port : Nat) (mask levels : UInt32)
    (int : Interrupt.Controller) (outside : δ) :
    Safe (c.input port mask levels int outside) (·.1) := by
  simp only [input]
  split
  · exact settle_safe h (Port.wellFormed_input (h ⟨port, ‹_›⟩) mask levels) _ int outside
  · exact ⟨rfl, h⟩

theorem read_safe (h : c.WellFormed) (port : Nat) (offset : UInt32) (w : Width) :
    Safe (c.read port offset w) (·.2) := by
  unfold read
  split
  · dsimp only
    split
    · exact ⟨rfl, wellFormed_setPort h (Port.wellFormed_receive (h ⟨port, ‹_›⟩)) ⟨port, ‹_›⟩⟩
    · exact ⟨rfl, h⟩
  · exact ⟨rfl, h⟩

theorem writePort_safe {p : Port} (h : p.WellFormed) (offset value : UInt32) (w : Width) :
    (writePort p offset value w).Ensures fun r => r.port.WellFormed := by
  have hmisc : ∀ v : UInt16, Port.WellFormed { p with misc := v } := fun v =>
    h.congr h.timer rfl rfl
  unfold writePort
  extract_lets index word mask low high
  split
  · exact (Port.transmit_safe h _).bind fun q hq => .pure hq
  split
  · have hw := Port.wellFormed_ite low (Port.wellFormed_writeMode h word.toUInt16) h
    split
    · exact Port.writeControl_safe hw _
    · exact .pure hw
  split
  · have hw := Port.wellFormed_ite low (hmisc word.toUInt16) h
    exact .pure (Port.wellFormed_ite high (Port.wellFormed_writeBaud hw _) hw)
  · exact .note_bind (.pure h)

theorem write_safe (h : c.WellFormed) (port : Nat) (offset value : UInt32) (w : Width)
    (int : Interrupt.Controller) (outside : δ) :
    Safe (c.write port offset value w int outside) (·.1) := by
  simp only [write]
  split
  · exact settle_bind_safe h (writePort_safe (h ⟨port, ‹_›⟩) offset value w) _ int outside
  · exact ⟨rfl, h⟩

theorem updatePort_safe (h : c.WellFormed) (i : Fin 2) (cycles : UInt32)
    (int : Interrupt.Controller) (outside : δ) :
    Safe (c.updatePort i cycles int outside) (·.1) :=
  settle_bind_safe h (Port.update_safe (h i) cycles) i int outside

theorem update_safe (h : c.WellFormed) (cycles : UInt32) (int : Interrupt.Controller)
    (outside : δ) : Safe (c.update cycles int outside) (·.1) := by
  refine (updatePort_safe h 0 cycles int outside).bind ?_
  rintro ⟨c, int, outside⟩ hc
  exact updatePort_safe hc 1 cycles int outside

theorem listen_safe (h : c.WellFormed) (port : Nat) (l : Listener δ) :
    Safe (c.listen port l) id := by
  simp only [listen]
  split
  · split
    · exact ⟨rfl, h⟩
    · exact ⟨rfl, h⟩
  · exact ⟨rfl, h⟩

end Controller
end R3000.Serial
