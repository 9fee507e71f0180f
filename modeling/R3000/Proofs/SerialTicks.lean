import Mathlib.Data.Nat.Digits.Defs
import R3000.Proofs.SerialConsistency

/-! # Ticks of a serial port

Time on a port is a matter of single cycles: what a slice of it does, its cycles do one after another.
A cycle in which the bit clock expires is a tick if there is something to send, and then the port
drives its outputs once. -/
namespace R3000.Serial

namespace Port
variable {p q : Port} {period r : UInt32}

def cycling (p : Port) : Nat → Reaction
  | 0 => ⟨p, [], 0⟩
  | c + 1 => (p.cycling c).before ((p.cycling c).port.update 1).value

theorem update_zero (h : p.WellFormed) : (p.update 0).value = ⟨p, [], 0⟩ := by
  cases hr : p.timer.remaining with
  | none => exact update_stopped (by simp [Timer.running, hr]) 0
  | some r =>
    have hpos := (h.timer r hr).1
    have hexpiries : p.timer.expiries 0 = 0 := by simp [Timer.expiries, hr, hpos]
    have hadvance : p.timer.advance 0 = p.timer := by
      simp only [Timer.advance, hr]
      rw [if_pos hpos, UInt32.sub_zero, ← hr]
    rw [value_update, hexpiries, hadvance]
    rfl

/-- A slice of time is its cycles. -/
theorem update_eq_cycling (h : p.WellFormed) (c : UInt32) : (p.update c).value = p.cycling c.toNat := by
  have hall : ∀ n, n < 0x100000000 → (p.update (UInt32.ofNat n)).value = p.cycling n := by
    intro n
    induction n with
    | zero => exact fun _ => update_zero h
    | succ n ih =>
      intro hn
      have hfits : (UInt32.ofNat n).toNat + (1 : UInt32).toNat < 0x100000000 := by
        rw [UInt32.toNat_ofNat_of_lt' (Nat.lt_of_succ_lt hn)]
        exact hn
      have hsum : UInt32.ofNat (n + 1) = UInt32.ofNat n + 1 := UInt32.ofNat_add n 1
      rw [hsum, update_add h hfits, ih (by omega)]
      rfl
  have hc := hall c.toNat c.toNat_lt
  rw [UInt32.ofNat_toNat] at hc
  exact hc

/-- A cycle in which the bit clock does not expire. -/
theorem cycle_waiting (ht : p.timer = ⟨period, some r⟩) (hr : 1 < r) :
    (p.update 1).value = ⟨p.clocked ⟨period, some (r - 1)⟩, [], 0⟩ := by
  have hexpiries : p.timer.expiries 1 = 0 := by simp [Timer.expiries, ht, hr]
  have hadvance : p.timer.advance 1 = ⟨period, some (r - 1)⟩ := by simp [Timer.advance, ht, hr]
  rw [value_update, hexpiries, hadvance]
  rfl

/-- A cycle in which it does. -/
theorem cycle_due (ht : p.timer = ⟨period, some 1⟩) :
    (p.update 1).value =
      p.tick.value.1.clocked ⟨period, if p.tick.value.2 then some period else none⟩ := by
  have hexpiries : p.timer.expiries 1 = 1 := by simp [Timer.expiries, ht]
  have hadvance : p.timer.advance 1 = ⟨period, some period⟩ := by simp [Timer.advance, ht]
  rw [value_update, hexpiries, hadvance]
  show (ticks 1 _).value = _
  rw [ticks_succ, tick_clocked]
  dsimp only
  cases p.tick.value.2 with
  | true =>
    show Reaction.mk _ (_ ++ []) (_ + 0) = _
    rw [List.append_nil]
    rfl
  | false => rfl

/-- Every bit that is sent shows on the clock line, and so the outputs change. -/
theorem clock_bitLines (p : Port) : p.bitLines.has Lines.clock = !p.outputs.has Lines.clock := by
  simp +decide [bitLines, Lines.has_toggle, Lines.has_set]

theorem driven_shiftBit (p : Port) : p.shiftBit = ⟨p.shiftBit.port, [p.bitLines], 0⟩ := by
  have hne : p.bitLines ≠ p.outputs := fun h => by
    have hclock := p.clock_bitLines
    rw [h] at hclock
    simp at hclock
  simp only [shiftBit, drive]
  rw [if_neg hne]

theorem queued_finishChar (p : Port) : p.finishChar.queued = p.queued := by
  simp only [finishChar, queued]
  by_cases hrx : p.status.has Status.rxReady <;> by_cases htx : p.status.has Status.txReady <;>
    simp +decide [Status.has_set, hrx, htx]

theorem queued_interrupt (p : Port) : p.interrupt.queued = p.queued := by
  simp +decide [interrupt, queued, Status.has_set]

def lastBit (q : Port) : Reaction :=
  if q.control.rxInterrupt || q.control.txInterrupt then
    ⟨q.shiftBit.port.finishChar.interrupt, [q.bitLines], 1⟩
  else ⟨q.shiftBit.port.finishChar, [q.bitLines], 0⟩

theorem driven_lastBit (q : Port) : q.lastBit.driven = [q.lastBit.port.outputs] := by
  have hout : q.shiftBit.port.outputs = q.bitLines := by rw [shiftBit_port]
  simp only [lastBit]
  split <;> simp [interrupt, finishChar, hout]

/-- A tick with a character at hand. -/
theorem value_tick (h : p.loadChar = some q) :
    p.tick.value =
      if q.shiftBit.port.shifting then (⟨q.shiftBit.port, [q.bitLines], 0⟩, true)
      else (q.lastBit, q.queued) := by
  have hport := q.shiftBit_port
  have hqueued : q.shiftBit.port.finishChar.queued = q.queued := by
    rw [queued_finishChar, hport]
    rfl
  have hcontrol : q.shiftBit.port.finishChar.control = q.control := by
    rw [hport]
    rfl
  simp only [tick, h, Reported.value_bind, lastBit]
  rw [hqueued, hcontrol, driven_shiftBit]
  split
  · rfl
  · split <;> rfl

/-- Either nothing was sent, or the outputs were driven once. -/
theorem driven_tick (p : Port) :
    (p.tick.value.1.driven = [] ∧ p.tick.value.1.raises = 0) ∨
      p.tick.value.1.driven = [p.tick.value.1.port.outputs] := by
  cases h : p.loadChar with
  | none =>
    refine .inl ?_
    simp [tick, h]
  | some q =>
    refine .inr ?_
    rw [value_tick h]
    have hout : q.shiftBit.port.outputs = q.bitLines := by rw [shiftBit_port]
    split
    · simp [hout]
    · exact q.driven_lastBit

end Port

/-- A cycle in which a port sends a bit. -/
structure Tick where
  /-- The cycles that have passed when it is over. -/
  time : Nat
  before : Port
  reaction : Reaction

namespace Tick

def after (t : Tick) : Port := t.reaction.port

def level (t : Tick) : Bool := t.after.outputs.has Lines.data

def sampled (t : Tick) : Bool := t.before.inputs.has Inputs.data

end Tick

namespace Port
variable {p q : Port}

/-- What the next cycle brings, where `time` cycles have passed: a tick if the outputs are driven. -/
def tick? (p : Port) (time : Nat) : Option Tick :=
  if (p.update 1).value.driven = [] then none
  else some ⟨time + 1, p, (p.update 1).value⟩

def ticking (p : Port) (time : Nat) : Nat → List Tick
  | 0 => []
  | c + 1 => p.ticking time c ++ ((p.cycling c).port.tick? (time + c)).toList

theorem driven_cycle (h : p.WellFormed) :
    ((p.update 1).value.driven = [] ∧ (p.update 1).value.raises = 0) ∨
      (p.update 1).value.driven = [(p.update 1).value.port.outputs] := by
  cases hr : p.timer.remaining with
  | none =>
    rw [update_stopped (by simp [Timer.running, hr])]
    exact .inl ⟨rfl, rfl⟩
  | some r =>
    have ht : p.timer = ⟨p.timer.period, some r⟩ := by rw [← hr]
    by_cases hlt : 1 < r
    · rw [cycle_waiting ht hlt]
      exact .inl ⟨rfl, rfl⟩
    · have hpos := UInt32.lt_iff_toNat_lt.mp (h.timer r hr).1
      have hone : r = 1 := by
        rw [UInt32.lt_iff_toNat_lt] at hlt
        apply UInt32.toNat_inj.mp
        simp only [UInt32.reduceToNat] at *
        omega
      rw [hone] at ht
      rw [cycle_due ht]
      exact p.driven_tick

theorem wellFormed_cycling (h : p.WellFormed) (c : Nat) : (p.cycling c).port.WellFormed := by
  induction c with
  | zero => exact h
  | succ c ih => exact (update_safe ih 1).value

/-- What a port drives in some cycles are its outputs at their ticks, and there it asks for
interrupts. -/
theorem cycling_ticking (h : p.WellFormed) (time c : Nat) :
    (p.cycling c).driven = (p.ticking time c).map (·.after.outputs) ∧
      (p.cycling c).raises = ((p.ticking time c).map (·.reaction.raises)).sum := by
  induction c with
  | zero => exact ⟨rfl, rfl⟩
  | succ c ih =>
    obtain ⟨hdriven, hraises⟩ := ih
    simp only [cycling, ticking, Reaction.before, List.map_append, List.sum_append]
    rw [← hdriven, ← hraises, tick?]
    rcases driven_cycle (wellFormed_cycling h c) with ⟨hd, hr⟩ | hd
    · rw [if_pos hd, hd, hr]
      exact ⟨rfl, rfl⟩
    · rw [if_neg (by simp [hd]), hd]
      exact ⟨rfl, rfl⟩

/-- A slice of time, tick by tick. -/
theorem update_ticking (h : p.WellFormed) (time : Nat) (c : UInt32) :
    (p.update c).value.driven = (p.ticking time c.toNat).map (·.after.outputs) ∧
      (p.update c).value.raises = ((p.ticking time c.toNat).map (·.reaction.raises)).sum := by
  rw [update_eq_cycling h]
  exact cycling_ticking h time c.toNat

def next? (p : Port) : Option UInt8 := if p.queued then some p.txData else none

theorem next?_congr (hq : p.queued = q.queued) (hd : p.txData = q.txData) : p.next? = q.next? := by
  simp only [next?]
  rw [hq, hd]

/-- The `j` lowest of the `n` bits of character `b` have been sent. With none of them sent the character
still waits, and with it nothing else. -/
structure Underway (n : Nat) (b : UInt8) (next : Option UInt8) (j : Nat) (p : Port) : Prop where
  waiting : j = 0 → p.txBits = 0 ∧ p.next? = some b ∧ next = none
  shifting : 0 < j → p.txBits.toNat = n - j ∧ p.txShift.toNat = b.toNat >>> j ∧ p.next? = next
  received : p.rxBits.toNat = j

/-- A character at hand, loaded if it was waiting. -/
structure Loaded (n : Nat) (b : UInt8) (next : Option UInt8) (j : Nat) (p q : Port) : Prop where
  txBits : q.txBits.toNat = n - j
  txShift : q.txShift.toNat = b.toNat >>> j
  next : q.next? = next
  received : q.rxBits.toNat = j
  same : q = { p with txShift := q.txShift, txBits := q.txBits, status := q.status }
  flags : ∀ f ∈ [Status.rxReady, Status.overrun, Status.irq], q.status.has f = p.status.has f

variable {n j : Nat} {b : UInt8} {next : Option UInt8}

theorem Underway.load (h : p.Underway n b next j) (hlt : j < n) (hn : p.mode.bitsPerChar.toNat = n)
    (enabled : p.control.txEnable) : ∃ q, p.loadChar = some q ∧ Loaded n b next j p q := by
  cases Nat.eq_zero_or_pos j with
  | inl h0 =>
    obtain ⟨hbits, hnext, hnone⟩ := h.waiting h0
    have hqueued : p.queued := by
      by_contra hq
      simp [next?, hq] at hnext
    have hshift : p.shifting = false := by simp [Port.shifting, hbits]
    have hdata : p.txData = b := by simpa [next?, hqueued] using hnext
    refine ⟨_, by simp [loadChar, hshift, hqueued, enabled]; rfl, ?_⟩
    subst h0
    refine ⟨hn, by simp [hdata], ?_, h.received, rfl, ?_⟩
    · simp +decide [next?, queued, Status.has_set, hnone]
    · simp +decide [Status.has_set]
  | inr hpos =>
    obtain ⟨hbits, hshift, hnext⟩ := h.shifting hpos
    have hs : p.shifting := p.shifting_iff.mpr (by omega)
    exact ⟨p, by simp [loadChar, hs], hbits, hshift, hnext, h.received, rfl, fun _ _ => rfl⟩

namespace Loaded

/-- The level of the data line is the next bit of the character. -/
theorem level (h : Loaded n b next j p q) : q.bitLines.has Lines.data = b.toNat.testBit j := by
  have hbit : Word.bit q.txShift.toUInt32 0 = b.toNat.testBit j := by
    rw [Word.bit, UInt8.toNat_toUInt32, h.txShift, Nat.testBit_shiftRight, Nat.add_zero]
  simpa +decide [bitLines, Lines.has_toggle, Lines.has_set] using hbit

theorem toNat_txBits (h : Loaded n b next j p q) (hlt : j < n) :
    q.shiftBit.port.txBits.toNat = n - (j + 1) := by
  have hle : (1 : UInt8) ≤ q.txBits := UInt8.le_iff_toNat_le.mpr (by
    rw [h.txBits]
    exact Nat.sub_pos_of_lt hlt)
  rw [shiftBit_port]
  dsimp only
  rw [UInt8.toNat_sub_of_le _ _ hle, h.txBits]
  rfl

/-- With a bit less to send there is one more of the character sent. -/
theorem shifted (h : Loaded n b next j p q) (hlt : j + 1 < n) (hn : n ≤ 8) :
    q.shiftBit.port.shifting ∧ q.shiftBit.port.Underway n b next (j + 1) := by
  have hbits := h.toNat_txBits (Nat.lt_of_succ_lt hlt)
  refine ⟨(shifting_iff _).mpr (by omega), nofun, fun _ => ⟨hbits, ?_, ?_⟩, ?_⟩
  · rw [shiftBit_port]
    dsimp only
    rw [UInt8.toNat_shiftRight, h.txShift, Nat.shiftRight_add]
    rfl
  · rw [shiftBit_port]
    exact h.next
  · rw [shiftBit_port]
    dsimp only
    rw [UInt8.toNat_add, h.received]
    exact Nat.mod_eq_of_lt (by simp only [UInt8.reduceToNat]; omega)

theorem not_shifting (h : Loaded n b next j p q) (hlast : j + 1 = n) :
    ¬q.shiftBit.port.shifting := by
  rw [shifting_iff, h.toNat_txBits (by omega)]
  omega

/-- One more bit has been received. -/
theorem sampled (h : Loaded n b next j p q) (hj : j < 8) (hrx : p.rxShift.toNat < 2 ^ j) :
    q.sampled.toNat = p.rxShift.toNat + 2 ^ j * (p.inputs.has Inputs.data).toNat := by
  have hshift : q.rxShift = p.rxShift := by rw [h.same]
  have hinputs : q.inputs = p.inputs := by rw [h.same]
  rw [toNat_sampled (by rw [h.received, hshift]; exact hrx) (h.received ▸ hj), h.received, hshift,
    hinputs]

end Loaded

end Port

namespace Reaction
variable {p : Port} {r : Reaction} {level : Bool} {value : Nat}

structure Sends (p : Port) (level : Bool) (r : Reaction) : Prop where
  driven : r.driven = [r.port.outputs]
  level : r.port.outputs.has Lines.data = level
  clock : r.port.outputs.has Lines.clock = !p.outputs.has Lines.clock
  mode : r.port.mode = p.mode
  baud : r.port.baud = p.baud
  control : r.port.control = p.control

structure Continues (p : Port) (r : Reaction) : Prop where
  rxData : r.port.rxData = p.rxData
  flags : ∀ f ∈ [Status.rxReady, Status.overrun, Status.irq], r.port.status.has f = p.status.has f
  raises : r.raises = 0

/-- A character has been received. It is an overrun if the one before still waits, and an interrupt is
asked for if the control register enables one of receiver or transmitter. -/
structure Completes (p : Port) (value : Nat) (r : Reaction) : Prop where
  rxData : r.port.rxData.toNat = value
  rxReady : r.port.status.has Status.rxReady
  overrun : r.port.status.has Status.overrun =
    (p.status.has Status.overrun || p.status.has Status.rxReady)
  irq : r.port.status.has Status.irq =
    (p.status.has Status.irq || p.control.rxInterrupt || p.control.txInterrupt)
  raises : r.raises = (p.control.rxInterrupt || p.control.txInterrupt).toNat

theorem Sends.clocked (h : Sends p level r) (t : Timer) : Sends p level (r.clocked t) :=
  ⟨h.driven, h.level, h.clock, h.mode, h.baud, h.control⟩

theorem Continues.clocked (h : Continues p r) (t : Timer) : Continues p (r.clocked t) :=
  ⟨h.rxData, h.flags, h.raises⟩

theorem Completes.clocked (h : Completes p value r) (t : Timer) : Completes p value (r.clocked t) :=
  ⟨h.rxData, h.rxReady, h.overrun, h.irq, h.raises⟩

end Reaction

namespace Port
variable {p q : Port} {n j : Nat} {b : UInt8} {next : Option UInt8}

/-- A tick in the middle of a character. -/
theorem Underway.tick_continues (h : p.Underway n b next j) (hlt : j + 1 < n) (hle : n ≤ 8)
    (hn : p.mode.bitsPerChar.toNat = n) (enabled : p.control.txEnable)
    (hrx : p.rxShift.toNat < 2 ^ j) :
    p.tick.value.2 = true ∧ p.tick.value.1.Sends p (b.toNat.testBit j) ∧
      p.tick.value.1.Continues p ∧ p.tick.value.1.port.Underway n b next (j + 1) ∧
      p.tick.value.1.port.rxShift.toNat =
        p.rxShift.toNat + 2 ^ j * (p.inputs.has Inputs.data).toNat := by
  obtain ⟨q, hq, hl⟩ := h.load (Nat.lt_of_succ_lt hlt) hn enabled
  obtain ⟨hs, hu⟩ := hl.shifted hlt hle
  have hsame := hl.same
  rw [value_tick hq, if_pos hs]
  refine ⟨rfl, ⟨?_, ?_, ?_, ?_, ?_, ?_⟩, ⟨?_, ?_, rfl⟩, hu, ?_⟩
  all_goals
    dsimp only
    rw [shiftBit_port]
  · exact hl.level
  · rw [clock_bitLines, hsame]
  · rw [hsame]
  · rw [hsame]
  · rw [hsame]
  · rw [hsame]
  · exact hl.flags
  · exact hl.sampled (by omega) hrx

theorem flags_received (p : Port) :
    p.finishChar.status.has Status.rxReady ∧
      p.finishChar.status.has Status.overrun =
        (p.status.has Status.overrun || p.status.has Status.rxReady) ∧
      p.finishChar.status.has Status.irq = p.status.has Status.irq := by
  simp only [finishChar, queued]
  by_cases hrx : p.status.has Status.rxReady <;> by_cases htx : p.status.has Status.txReady <;>
    simp +decide [Status.has_set, hrx, htx]

/-- After its last bit nothing is left of a character, and what waits goes on waiting. -/
structure Finished (p : Port) (r : Reaction) : Prop where
  outputs : r.port.outputs = p.bitLines
  next : r.port.next? = p.next?
  txBits : r.port.txBits = p.txBits - 1
  rxBits : r.port.rxBits = 0
  rxShift : r.port.rxShift = 0
  mode : r.port.mode = p.mode
  baud : r.port.baud = p.baud
  control : r.port.control = p.control

theorem finished_lastBit (q : Port) : Finished q q.lastBit := by
  have hqueued := q.shiftBit.port.queued_finishChar
  have hinterrupt := q.shiftBit.port.finishChar.queued_interrupt
  simp only [lastBit]
  rw [shiftBit_port] at hqueued hinterrupt ⊢
  split
  · exact ⟨rfl, next?_congr (hinterrupt.trans hqueued) rfl, rfl, rfl, rfl, rfl, rfl, rfl⟩
  · exact ⟨rfl, next?_congr hqueued rfl, rfl, rfl, rfl, rfl, rfl, rfl⟩

theorem Loaded.completes (h : Loaded n b next j p q) (hj : j < 8) (hrx : p.rxShift.toNat < 2 ^ j) :
    q.lastBit.Completes p (p.rxShift.toNat + 2 ^ j * (p.inputs.has Inputs.data).toNat) := by
  obtain ⟨hready, hoverrun, hirq⟩ := q.shiftBit.port.flags_received
  have hdata : q.shiftBit.port.finishChar.rxData = q.sampled := by
    rw [shiftBit_port]
    rfl
  have hcontrol : q.control = p.control := by rw [h.same]
  have hflags := h.flags
  simp only [List.forall_mem_cons, List.not_mem_nil, false_imp_iff, implies_true, and_true] at hflags
  have hstatus : q.shiftBit.port.status = q.status := by rw [shiftBit_port]
  rw [hstatus, hflags.1, hflags.2.1] at hoverrun
  rw [hstatus, hflags.2.2] at hirq
  rw [← h.sampled hj hrx, ← hdata, lastBit, hcontrol]
  split
  · rename_i hint
    refine ⟨rfl, ?_, ?_, ?_, by rw [hint]; rfl⟩
    · simpa +decide [interrupt, Status.has_set] using hready
    · simpa +decide [interrupt, Status.has_set] using hoverrun
    · rw [Bool.or_assoc, hint, Bool.or_true]
      simp +decide [interrupt, Status.has_set]
  · rename_i hint
    rw [Bool.not_eq_true] at hint
    exact ⟨rfl, hready, hoverrun, by rw [Bool.or_assoc, hint, Bool.or_false]; exact hirq,
      by rw [hint]; rfl⟩

/-- With its last bit a character has been sent, and one received; then the next one waits, or the port
is idle. -/
theorem Underway.tick_completes (h : p.Underway n b next j) (hlast : j + 1 = n) (hle : n ≤ 8)
    (hn : p.mode.bitsPerChar.toNat = n) (enabled : p.control.txEnable)
    (hrx : p.rxShift.toNat < 2 ^ j) :
    p.tick.value.2 = next.isSome ∧ p.tick.value.1.Sends p (b.toNat.testBit j) ∧
      p.tick.value.1.Completes p (p.rxShift.toNat + 2 ^ j * (p.inputs.has Inputs.data).toNat) ∧
      p.tick.value.1.port.next? = next ∧ p.tick.value.1.port.txBits = 0 ∧
      p.tick.value.1.port.rxBits = 0 ∧ p.tick.value.1.port.rxShift = 0 := by
  obtain ⟨q, hq, hl⟩ := h.load (by omega) hn enabled
  have hf := q.finished_lastBit
  have hbits : q.txBits - 1 = 0 := by
    have hzero := txBits_of_not_shifting (hl.not_shifting hlast)
    rw [shiftBit_port] at hzero
    exact hzero
  have hqueued : q.queued = next.isSome := by
    rw [← hl.next, next?]
    cases q.queued <;> rfl
  rw [value_tick hq, if_neg (hl.not_shifting hlast)]
  refine ⟨hqueued, ⟨q.driven_lastBit, ?_, ?_, ?_, ?_, ?_⟩, hl.completes (by omega) hrx,
    hf.next.trans hl.next, hf.txBits.trans hbits, hf.rxBits, hf.rxShift⟩
  · rw [hf.outputs]
    exact hl.level
  · rw [hf.outputs, clock_bitLines, hl.same]
  · rw [hf.mode, hl.same]
  · rw [hf.baud, hl.same]
  · rw [hf.control, hl.same]

end Port
end R3000.Serial
