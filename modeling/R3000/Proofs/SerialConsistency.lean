import Mathlib.Algebra.Group.Nat.Defs
import R3000.Proofs.SerialOperations

/-! # What is always true of a serial port

The flags of a port tell what its shift registers hold and which levels it samples, its bit clock
follows the mode and the baud register and runs only while there is something to send, and its outputs
follow the control register. Every operation keeps this, so it holds of a port from power-on on. -/
namespace R3000

theorem Word.bit_xor (a b : UInt32) (i : Nat) : bit (a ^^^ b) i = (bit a i ^^ bit b i) := by
  simp only [bit]
  rw [UInt32.toNat_xor, Nat.testBit_xor]

namespace Serial

theorem Status.has_set (s : Status) {i j : Nat} (hi : i < 32) (hj : j < 32) (b : Bool) :
    (s.set i b).has j = if i = j then b else s.has j :=
  Word.bit_setBit s.bits hi hj b

theorem Lines.has_set (l : Lines) {i j : Nat} (hi : i < 32) (hj : j < 32) (b : Bool) :
    (l.set i b).has j = if i = j then b else l.has j :=
  Word.bit_setBit l.bits hi hj b

theorem Lines.has_toggle (l : Lines) {i : Nat} (hi : i < 32) (j : Nat) :
    (l.toggle i).has j = (l.has j ^^ decide (i = j)) := by
  simp only [toggle, has]
  rw [Word.bit_xor, Word.bit_single hi]

/-- Of the control register only the acknowledgement is not kept. -/
theorem Control.bit_clearIack (c : Control) (i : Nat) :
    c.clearIack.bit i = (c.bit i && Word.bit 0xffef i) := by
  simp only [clearIack, bit]
  rw [UInt16.toUInt32_and, Word.bit_and]
  rfl

structure Flags (s : Status) (txBits : UInt8) (inputs : Inputs) : Prop where
  txEmpty : s.has Status.txEmpty ↔ s.has Status.txReady ∧ txBits = 0
  dsr : s.has Status.dsr = inputs.has Inputs.dsr
  cts : s.has Status.cts = inputs.has Inputs.cts

/-- The other flags tell nothing of these. -/
theorem Flags.set {s : Status} {txBits : UInt8} {inputs : Inputs} (h : Flags s txBits inputs) {i : Nat}
    (hi : i ∈ [Status.rxReady, Status.parityError, Status.overrun, Status.irq]) (b : Bool) :
    Flags (s.set i b) txBits inputs := by
  simp only [List.mem_cons, List.not_mem_nil, or_false] at hi
  rcases hi with rfl | rfl | rfl | rfl
  all_goals
    constructor
    · simpa +decide [Status.has_set] using h.txEmpty
    · simpa +decide [Status.has_set] using h.dsr
    · simpa +decide [Status.has_set] using h.cts

/-- The bits of the characters under way. -/
structure Counts (txBits rxBits rxShift : UInt8) : Prop where
  idle : txBits = 0 → rxBits = 0 ∧ rxShift = 0
  bits : txBits.toNat + rxBits.toNat = 0 ∨
    5 ≤ txBits.toNat + rxBits.toNat ∧ txBits.toNat + rxBits.toNat ≤ 8
  shift : rxShift.toNat < 2 ^ rxBits.toNat

structure Timer.Paced (t : Timer) (period : UInt32) : Prop where
  wellFormed : t.WellFormed
  period : t.period = period

/-- What of the control register shows outside, and what it never keeps. -/
structure Shown (c : Control) (outputs : Lines) : Prop where
  dtr : outputs.has Lines.dtr = c.dtr
  rts : outputs.has Lines.rts = c.rts
  iack : c.iack = false
  reset : c.reset = false

namespace Port
variable {p q : Port}

structure Coherent (p : Port) : Prop where
  flags : Flags p.status p.txBits p.inputs
  counts : Counts p.txBits p.rxBits p.rxShift
  clock : p.timer.Paced p.period
  wires : Shown p.control p.outputs

/-- The bit clock runs only while there is something to send. -/
def Awake (p : Port) : Prop := p.timer.running → p.queued ∨ p.shifting

structure Sound (p : Port) : Prop extends Coherent p where
  awake : p.Awake

theorem sound_idle : ({} : Port).Sound where
  flags := ⟨by decide, by decide, by decide⟩
  counts := ⟨fun _ => ⟨rfl, rfl⟩, .inl rfl, by decide⟩
  clock := ⟨nofun, by decide⟩
  wires := ⟨by decide, by decide, by decide, by decide⟩
  awake := nofun

theorem port_drive (p : Port) (lines : Lines) : (p.drive lines).port = { p with outputs := lines } := by
  simp only [drive]
  split
  · rename_i h
    rw [h]
  · rfl

theorem value_kick (p : Port) :
    p.kick.value =
      if p.control.txEnable ∧ (p.queued ∨ p.shifting) then { p with timer := p.timer.start p.period }
      else p := by
  simp only [kick]
  split
  · split <;> rfl
  · rfl

/-- A kick starts the clock only where there is something to send. -/
theorem Coherent.kick (h : p.Coherent) (ha : p.Awake) : p.kick.value.Sound := by
  rw [value_kick]
  split
  · rename_i hc
    exact ⟨⟨h.flags, h.counts, ⟨Timer.wellFormed_start h.clock.wellFormed _, rfl⟩, h.wires⟩,
      fun _ => hc.2⟩
  · exact ⟨h, ha⟩

theorem value_transmit (p : Port) (value : UInt8) :
    (p.transmit value).value =
      { p with
        txData := value
        status := (p.status.set Status.txReady false).set Status.txEmpty false }.kick.value := by
  simp only [transmit]
  split <;> rfl

theorem Sound.transmit (h : p.Sound) (value : UInt8) : (p.transmit value).value.Sound := by
  rw [value_transmit]
  refine Coherent.kick ⟨⟨?_, ?_, ?_⟩, h.counts, h.clock, h.wires⟩ fun _ => .inl ?_
  · simp +decide [Status.has_set]
  · simpa +decide [Status.has_set] using h.flags.dsr
  · simpa +decide [Status.has_set] using h.flags.cts
  · simp +decide [queued, Status.has_set]

/-- The flags of the receiver and of interrupts count for nothing here. -/
theorem Sound.setFlag (h : p.Sound) {i : Nat}
    (hi : i ∈ [Status.rxReady, Status.parityError, Status.overrun, Status.irq]) (b : Bool) :
    ({ p with status := p.status.set i b } : Port).Sound := by
  refine ⟨⟨h.flags.set hi b, h.counts, h.clock, h.wires⟩, fun hr => ?_⟩
  simp only [List.mem_cons, List.not_mem_nil, or_false] at hi
  rcases hi with rfl | rfl | rfl | rfl <;>
    simpa +decide [queued, shifting, Status.has_set] using h.awake hr

theorem Sound.receive (h : p.Sound) : p.receive.Sound := h.setFlag (by decide) false

theorem Sound.interrupt (h : p.Sound) : p.interrupt.Sound := h.setFlag (by decide) true

theorem Sound.acknowledge (h : p.Sound) : p.acknowledge.Sound :=
  ((h.setFlag (by decide) false).setFlag (by decide) false).setFlag (by decide) false

/-- The mode and the baud register count only through the period. -/
theorem Sound.retime {mode : Mode} {baud : UInt16} (h : p.Sound) :
    ({ p with mode, baud } : Port).retime.Sound := by
  refine ⟨⟨h.flags, h.counts, ⟨Timer.wellFormed_setPeriod h.clock.wellFormed _, rfl⟩, h.wires⟩,
    fun hr => h.awake ?_⟩
  simp only [Port.retime, Timer.setPeriod, Timer.running] at hr ⊢
  split at hr
  · cases hr
  · exact hr

theorem Sound.writeMode (h : p.Sound) (value : UInt16) : (p.writeMode value).Sound := h.retime

theorem Sound.writeBaud (h : p.Sound) (value : UInt16) : (p.writeBaud value).Sound := h.retime

/-- With other input levels the flags follow. -/
theorem Sound.syncInputs {inputs : Inputs} (h : p.Sound) :
    ({ p with inputs } : Port).syncInputs.Sound := by
  refine ⟨⟨⟨?_, ?_, ?_⟩, h.counts, h.clock, h.wires⟩, fun hr => ?_⟩
  · simpa +decide [Port.syncInputs, Status.has_set] using h.flags.txEmpty
  · simp +decide [Port.syncInputs, Status.has_set]
  · simp +decide [Port.syncInputs, Status.has_set]
  · simpa +decide [queued, shifting, Port.syncInputs, Status.has_set] using h.awake hr

theorem Sound.input (h : p.Sound) (mask levels : UInt32) : (p.input mask levels).port.Sound := by
  simp only [Port.input]
  split
  · exact h.syncInputs.interrupt
  · exact h.syncInputs

theorem sound_reset (p : Port) : p.reset.port.Sound := by
  have h : ({ inputs := p.inputs } : Port).syncInputs.Sound := sound_idle.syncInputs
  simp only [reset]
  rw [port_drive]
  exact ⟨⟨h.flags, h.counts, h.clock, h.wires⟩, h.awake⟩

theorem Coherent.stop (h : p.Coherent) : ({ p with timer := p.timer.stop } : Port).Sound :=
  ⟨⟨h.flags, h.counts, ⟨Timer.wellFormed_stop _, h.clock.period⟩, h.wires⟩, nofun⟩

/-- A control word that does not reset the port is kept, and shown. -/
theorem shown_control {c : Control} (h : c.reset = false) (l : Lines) :
    Shown c.clearIack ((l.set Lines.dtr c.dtr).set Lines.rts c.rts) := by
  constructor
  · simp +decide [Lines.has_set, Control.dtr, Control.bit_clearIack]
  · simp +decide [Lines.has_set, Control.rts, Control.bit_clearIack]
  · simp +decide [Control.iack, Control.bit_clearIack]
  · simp only [Control.reset] at h ⊢
    rw [Control.bit_clearIack, h, Bool.false_and]

theorem Sound.writeControl (h : p.Sound) (value : UInt16) : (p.writeControl value).value.port.Sound := by
  simp only [Port.writeControl]
  split
  · exact sound_reset p
  rename_i hreset
  generalize hq : (if (⟨value⟩ : Control).iack then p.acknowledge else p) = q
  have hs : q.Sound := by
    subst hq
    split
    · exact h.acknowledge
    · exact h
  generalize hr : Port.drive _ _ = r
  have hc : r.port.Coherent ∧ r.port.Awake := by
    subst hr
    rw [port_drive]
    exact ⟨⟨hs.flags, hs.counts, hs.clock, shown_control (Bool.eq_false_iff.mpr hreset) _⟩, hs.awake⟩
  split
  · exact hc.1.kick hc.2
  split
  · exact ⟨hc.1, hc.2⟩
  · exact hc.1.stop

theorem ne_zero_of_pos {n : UInt8} (h : 0 < n.toNat) : n ≠ 0 := by
  rintro rfl
  exact absurd h (by decide)

/-- What there is to shift, with the flags and bits as they are when it is shifted. -/
theorem Coherent.loadChar (h : p.Coherent) (hq : p.loadChar = some q) :
    q.Coherent ∧ 0 < q.txBits.toNat := by
  refine ⟨?_, loadChar_pos hq⟩
  simp only [Port.loadChar] at hq
  split at hq
  · cases hq
    exact h
  split at hq
  · rename_i hshift hload
    cases hq
    have hidle := h.counts.idle (txBits_of_not_shifting hshift)
    have hbits := bitsPerChar_bounds p.mode
    have hne : p.mode.bitsPerChar ≠ 0 := ne_zero_of_pos (Nat.lt_of_lt_of_le (by decide) hbits.1)
    have hready : p.status.has Status.txReady = false := by
      simpa [queued] using (Bool.and_eq_true_iff.mp hload).1
    have hempty := h.flags.txEmpty
    rw [hready] at hempty
    refine ⟨⟨?_, ?_, ?_⟩, ⟨fun h0 => absurd h0 hne, ?_, h.counts.shift⟩, h.clock, h.wires⟩
    · simpa +decide [Status.has_set, hne] using hempty
    · simpa +decide [Status.has_set] using h.flags.dsr
    · simpa +decide [Status.has_set] using h.flags.cts
    · rw [hidle.1]
      exact .inr hbits
  · cases hq

/-- The receive register takes the next bit above those it has. -/
theorem toNat_sampled (h : p.rxShift.toNat < 2 ^ p.rxBits.toNat) (hb : p.rxBits.toNat < 8) :
    p.sampled.toNat =
      p.rxShift.toNat + 2 ^ p.rxBits.toNat * (p.inputs.has Inputs.data).toNat := by
  have hpow : 2 ^ p.rxBits.toNat < 256 := Nat.pow_lt_pow_right (by decide) hb
  have hone : (1 <<< p.rxBits : UInt8).toNat = 2 ^ p.rxBits.toNat := by
    rw [UInt8.toNat_shiftLeft, Nat.mod_eq_of_lt hb, show (1 : UInt8).toNat = 1 from rfl,
      Nat.one_shiftLeft, Nat.mod_eq_of_lt hpow]
  simp only [sampled]
  cases p.inputs.has Inputs.data with
  | false => simp
  | true =>
    have hor := Nat.two_pow_add_eq_or_of_lt h 1
    rw [Nat.mul_one] at hor
    rw [if_pos rfl, UInt8.toNat_or, hone, Nat.or_comm, ← hor, Bool.toNat_true, Nat.mul_one,
      Nat.add_comm]

theorem shiftBit_port (p : Port) :
    p.shiftBit.port =
      { p with
        txShift := p.txShift >>> 1
        txBits := p.txBits - 1
        outputs := p.bitLines
        rxShift := p.sampled
        rxBits := p.rxBits + 1 } := by
  simp only [shiftBit]
  rw [port_drive]
  rfl

/-- What a port sends does not show in its control lines. -/
theorem shown_bitLines (h : Shown p.control p.outputs) : Shown p.control p.bitLines := by
  constructor
  · simpa +decide [bitLines, Lines.has_toggle, Lines.has_set] using h.dtr
  · simpa +decide [bitLines, Lines.has_toggle, Lines.has_set] using h.rts
  · exact h.iack
  · exact h.reset

/-- While a bit is left to send, a tick only moves the bits on. -/
theorem Coherent.shiftBit (h : p.Coherent) (hp : 0 < p.txBits.toNat) (hs : p.shiftBit.port.shifting) :
    p.shiftBit.port.Coherent := by
  have hbits : 5 ≤ p.txBits.toNat + p.rxBits.toNat ∧ p.txBits.toNat + p.rxBits.toNat ≤ 8 :=
    h.counts.bits.resolve_left (by omega)
  have hle : (1 : UInt8) ≤ p.txBits := UInt8.le_iff_toNat_le.mpr hp
  have htx : (p.txBits - 1).toNat = p.txBits.toNat - 1 := UInt8.toNat_sub_of_le _ _ hle
  have hrx : (p.rxBits + 1).toNat = p.rxBits.toNat + 1 := by
    rw [UInt8.toNat_add, show (1 : UInt8).toNat = 1 from rfl]
    omega
  rw [shiftBit_port] at hs ⊢
  have hleft : p.txBits - 1 ≠ 0 := by simpa [shifting] using hs
  refine ⟨⟨?_, h.flags.dsr, h.flags.cts⟩, ⟨fun h0 => absurd h0 hleft, ?_, ?_⟩, h.clock,
    shown_bitLines h.wires⟩
  · simpa [hleft, ne_zero_of_pos hp] using h.flags.txEmpty
  · dsimp only
    omega
  · dsimp only
    have hsum := Nat.mul_le_mul_left (2 ^ p.rxBits.toNat) (Bool.toNat_le (p.inputs.has Inputs.data))
    have hshift := h.counts.shift
    rw [hrx, toNat_sampled h.counts.shift (by omega), Nat.pow_succ]
    omega

theorem flags_finishChar (hbits : p.txBits = 0) (hempty : p.status.has Status.txEmpty = false)
    (hdsr : p.status.has Status.dsr = p.inputs.has Inputs.dsr)
    (hcts : p.status.has Status.cts = p.inputs.has Inputs.cts) :
    Flags p.finishChar.status p.txBits p.inputs := by
  simp only [finishChar, queued]
  by_cases hrx : p.status.has Status.rxReady <;> by_cases htx : p.status.has Status.txReady
  all_goals
    constructor
    · simp +decide [Status.has_set, hrx, htx, hbits, hempty]
    · simpa +decide [Status.has_set, hrx, htx] using hdsr
    · simpa +decide [Status.has_set, hrx, htx] using hcts

/-- With its last bit a character is gone, and nothing of it is left. -/
theorem Coherent.finishChar (h : p.Coherent) (hp : 0 < p.txBits.toNat)
    (hs : ¬p.shiftBit.port.shifting) : p.shiftBit.port.finishChar.Coherent := by
  have hzero := txBits_of_not_shifting hs
  have hempty : p.status.has Status.txEmpty = false := by
    simpa [ne_zero_of_pos hp] using h.flags.txEmpty
  rw [shiftBit_port] at hzero ⊢
  refine ⟨flags_finishChar hzero hempty h.flags.dsr h.flags.cts, ⟨fun _ => ⟨rfl, rfl⟩, .inl ?_, ?_⟩,
    h.clock, shown_bitLines h.wires⟩
  · simp [Port.finishChar, hzero]
  · exact Nat.one_pos

/-- A tick keeps a port coherent, and where it asks for more there is something left to send. -/
theorem Coherent.tick (h : p.Coherent) :
    p.tick.value.1.port.Coherent ∧
      (p.tick.value.2 → p.tick.value.1.port.queued ∨ p.tick.value.1.port.shifting) := by
  simp only [Port.tick]
  split
  · exact ⟨h, fun hf => absurd hf Bool.false_ne_true⟩
  rename_i q hq
  obtain ⟨hc, hp⟩ := h.loadChar hq
  simp only [Reported.value_bind]
  split
  · rename_i hs
    exact ⟨hc.shiftBit hp hs, fun _ => .inr hs⟩
  · rename_i hs
    have hf := hc.finishChar hp hs
    split
    · refine ⟨⟨hf.flags.set (by decide) true, hf.counts, hf.clock, hf.wires⟩, fun hm => .inl ?_⟩
      simpa +decide [queued, interrupt, Status.has_set] using hm
    · exact ⟨hf, fun hm => .inl hm⟩

/-- Where a batch of ticks does not stop the clock, the last of them has left something to send. -/
theorem Coherent.ticks (h : p.Coherent) (ha : p.Awake) (n : Nat) : (ticks n p).value.port.Sound := by
  induction n generalizing p with
  | zero => exact ⟨h, ha⟩
  | succ n ih =>
    rw [ticks_succ]
    split
    · exact ih h.tick.1 fun _ => h.tick.2 ‹_›
    · exact h.tick.1.stop

theorem Sound.update (h : p.Sound) (cycles : UInt32) : (p.update cycles).value.port.Sound := by
  have hclock : (p.timer.advance cycles).Paced p.period :=
    ⟨Timer.wellFormed_advance h.clock.wellFormed cycles,
      (Timer.period_advance _ _).trans h.clock.period⟩
  have hc : (p.clocked (p.timer.advance cycles)).Coherent := ⟨h.flags, h.counts, hclock, h.wires⟩
  rw [value_update]
  refine hc.ticks (fun hr => h.awake ?_) _
  rw [← Timer.running_advance p.timer cycles]
  exact hr

theorem sound_ite {c : Prop} [Decidable c] (hp : p.Sound) (hq : q.Sound) :
    (if c then p else q).Sound := by
  split
  · exact hp
  · exact hq

theorem Sound.writePort (h : p.Sound) (offset value : UInt32) (w : Width) :
    (Controller.writePort p offset value w).value.port.Sound := by
  have hmisc : ∀ misc, ({ p with misc } : Port).Sound := fun _ =>
    ⟨⟨h.flags, h.counts, h.clock, h.wires⟩, h.awake⟩
  unfold Controller.writePort
  extract_lets index word mask low high
  split
  · exact h.transmit _
  split
  · have hm : (if low then p.writeMode word.toUInt16 else p).Sound := sound_ite (h.writeMode _) h
    split
    · exact hm.writeControl _
    · exact hm
  split
  · have hm : (if low then { p with misc := word.toUInt16 } else p).Sound := sound_ite (hmisc _) h
    exact sound_ite (hm.writeBaud _) hm
  · exact h

end Port

theorem Operation.sound (op : Operation) (i : Fin 2) {p : Port} (h : p.Sound) :
    (op.reaction i p).port.Sound := by
  cases op with
  | read port offset w =>
    simp only [reaction]
    split
    · exact Port.sound_ite h.receive h
    · exact h
  | write port offset value w =>
    simp only [reaction]
    split
    · exact h.writePort offset value w
    · exact h
  | input port mask levels =>
    simp only [reaction]
    split
    · exact h.input mask levels
    · exact h
  | update cycles => exact h.update cycles
  | reset => exact Port.sound_idle

structure Port.Consistent (p : Port) : Prop where
  txEmpty : p.status.has Status.txEmpty ↔ p.status.has Status.txReady ∧ p.txBits = 0
  idle : p.txBits = 0 → p.rxBits = 0 ∧ p.rxShift = 0
  bits : p.txBits.toNat + p.rxBits.toNat = 0 ∨
    5 ≤ p.txBits.toNat + p.rxBits.toNat ∧ p.txBits.toNat + p.rxBits.toNat ≤ 8
  rxShift : p.rxShift.toNat < 2 ^ p.rxBits.toNat
  period : p.timer.period.toNat = p.mode.multiplier.toNat * p.baud.toNat
  running : ∀ r, p.timer.remaining = some r →
    1 ≤ p.timer.period.toNat ∧ 1 ≤ r.toNat ∧ (p.queued ∨ p.shifting)
  dsr : p.status.has Status.dsr = p.inputs.has Inputs.dsr
  cts : p.status.has Status.cts = p.inputs.has Inputs.cts
  dtr : p.outputs.has Lines.dtr = p.control.dtr
  rts : p.outputs.has Lines.rts = p.control.rts
  iack : p.control.iack = false
  reset : p.control.reset = false

theorem Port.Consistent.of_sound {p : Port} (h : p.Sound) : p.Consistent where
  txEmpty := h.flags.txEmpty
  idle := h.counts.idle
  bits := h.counts.bits
  rxShift := h.counts.shift
  period := by rw [h.clock.period, Port.toNat_period]
  running r hr := by
    obtain ⟨hpos, hperiod⟩ := h.clock.wellFormed r hr
    refine ⟨UInt32.lt_iff_toNat_lt.mp hperiod, UInt32.lt_iff_toNat_lt.mp hpos, h.awake ?_⟩
    simp [Timer.running, hr]
  dsr := h.flags.dsr
  cts := h.flags.cts
  dtr := h.wires.dtr
  rts := h.wires.rts
  iack := h.wires.iack
  reset := h.wires.reset

variable {δ : Type} {s : Nat → Bus δ} {op : Nat → Operation}

theorem Operated.sound (hs : Operated s op) (h : (s 0).serial.AtPowerOn) (k : Nat) (i : Fin 2) :
    ((s k).serial.port i).Sound := by
  induction k with
  | zero =>
    rw [h i]
    exact Port.sound_idle
  | succ k ih =>
    rw [hs.port]
    exact (op k).sound i ih

/-- From power-on on a port is consistent, whatever is done to the serial controller. -/
theorem Operated.consistent (hs : Operated s op) (h : (s 0).serial.AtPowerOn) (k : Nat) (i : Fin 2) :
    ((s k).serial.port i).Consistent :=
  .of_sound (hs.sound h k i)

/-- Sets port 0 going with eight bits of two cycles each, and interrupts it in the middle of a
character. -/
def interrupting : Nat → Operation
  | 0 => .write 0 8 0xd .half
  | 1 => .write 0 0xe 2 .half
  | 2 => .write 0 0xa 0x23 .half
  | 3 => .write 0 0 0x55 .byte
  | 4 => .update 7
  | 5 => .input 0 2 2
  | _ => .write 0 0xa 0x40 .half

set_option maxRecDepth 10000 in
theorem consistent_interrupting :
    Operated (operated Machine.bare.bus interrupting) interrupting ∧
      Machine.bare.bus.serial.AtPowerOn ∧
      (∀ k ≤ 7, ((operated Machine.bare.bus interrupting k).serial.port 0).Consistent) ∧
      ((operated Machine.bare.bus interrupting 6).serial.port 0).txBits = 5 := by
  have hs := operated_operated Machine.bare.bus interrupting
  exact ⟨hs, atPowerOn_bare, fun k _ => hs.consistent atPowerOn_bare k 0, by decide +kernel⟩

end Serial
end R3000
