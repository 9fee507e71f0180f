import R3000.Proofs.SerialSending

/-! # Writes to a serial port that sends

A character that is written while none waits is sent in its turn. Reads, inputs, and writes that keep the
settings of the transmitter do not touch what is sent. -/
namespace R3000.Serial.Port
variable {p q : Port} {n period time : Nat} {sent : List (Nat × UInt8)} {ticks : List Tick}

theorem next?_none_iff (p : Port) : p.next? = none ↔ p.queued = false := by
  simp [next?]

/-- A port that sends takes a character to wait, and sets its clock going if it stood still. -/
structure Accepts (value : UInt8) (p q : Port) : Prop where
  next : q.next? = some value
  same : q = { p with txData := value, status := q.status, timer := p.timer.start p.period }

theorem Sender.accepts (h : p.Sender n period) (value : UInt8) :
    p.Accepts value (p.transmit value).value := by
  rw [value_transmit]
  generalize hs : (p.status.set Status.txReady false).set Status.txEmpty false = status
  have hqueued : ({ p with txData := value, status } : Port).queued := by
    subst hs
    simp +decide [queued, Status.has_set]
  rw [value_kick, if_pos ⟨h.enabled, .inl hqueued⟩]
  exact ⟨if_pos hqueued, rfl⟩

theorem Sender.period_ne_zero (h : p.Sender n period) : p.period ≠ 0 := fun h0 => by
  have hpos := h.pos
  rw [← h.period, h0] at hpos
  exact absurd hpos (by decide)

/-- A character that is written when everything has gone starts at once. -/
theorem Through.transmit (h : p.Through n period time sent ticks) (hs : p.Sender n period)
    {value : UInt8} (hq : p.Accepts value q) :
    q.Busy n period time (sent ++ [(time, value)]) ticks (starts (n * period) 0 sent) time value none 0
      p.period := by
  have hn := hs.bits_bounds
  have hlength := congrArg List.length h.marks
  rw [List.length_map, length_flatMap_bits] at hlength
  have htimer : p.timer.start p.period = ⟨p.period, some p.period⟩ := by
    rw [h.idle.timer]
    simp [Timer.start, hs.period_ne_zero]
  have hsame := hq.same
  rw [htimer] at hsame
  refine ⟨?_, by omega, ⟨fun _ => ⟨?_, hq.next, rfl⟩, nofun, ?_⟩, ?_, ?_, ?_, ?_, ?_, ?_⟩
  · rw [starts_concat, Nat.max_eq_left (freed_le (Nat.zero_le time) h.past)]
    rfl
  · rw [hsame]
    exact h.idle.txBits
  · rw [hsame]
    simp [h.idle.rxBits]
  · rw [hsame]
    rfl
  · rw [hs.period]
    exact hs.pos
  · rw [hs.period]
  · rw [hs.period]
    omega
  · rw [h.marks]
    simp [Serial.bits]
  · rw [List.drop_eq_nil_of_le (by rw [List.length_map]; exact hlength.le), hsame]
    simp [h.idle.rxShift]

/-- One that is written while another is under way waits until that has gone. -/
theorem Busy.transmit {done : List (Nat × UInt8)} {start j : Nat} {b : UInt8} {r : UInt32}
    (h : p.Busy n period time sent ticks done start b none j r) (hs : p.Sender n period) (hj : 0 < j)
    {value : UInt8} (hq : p.Accepts value q) :
    q.Busy n period time (sent ++ [(time, value)]) ticks done start b (some value) j r := by
  obtain ⟨htx, hshift, -⟩ := h.underway.shifting hj
  have htimer : p.timer.start p.period = ⟨p.period, some r⟩ := by
    rw [h.timer]
    simp [Timer.start, hs.period_ne_zero]
  have hschedule := h.schedule
  have hfreed : freed (n * period) 0 sent = start + n * period := by simp [freed, hschedule]
  have hdue := h.due
  have hmul : (j + 1) * period ≤ n * period := Nat.mul_le_mul_right period h.lt
  have hsame := hq.same
  rw [htimer] at hsame
  refine ⟨?_, h.lt, ⟨fun h0 => absurd h0 hj.ne', fun _ => ⟨?_, ?_, hq.next⟩, ?_⟩, ?_, h.pos, h.le, h.due,
    h.marks, ?_⟩
  · rw [starts_concat, hfreed, Nat.max_eq_right (by omega), hschedule]
    simp
  · rw [hsame]
    exact htx
  · rw [hsame]
    exact hshift
  · rw [hsame]
    exact h.underway.received
  · rw [hsame]
    rfl
  · rw [hsame]
    exact h.rxShift

/-- A character is written while none waits. -/
theorem Transmission.transmit (h : p.Transmission n period time sent ticks) (hq : p.queued = false)
    (value : UInt8) :
    (p.transmit value).value.Transmission n period time (sent ++ [(time, value)]) ticks := by
  have haccepts := h.sender.accepts value
  generalize (p.transmit value).value = q at *
  have hsame := haccepts.same
  have hsender := (h.sender.congr (q := q) (by rw [hsame]) (by rw [hsame])
    (by rw [hsame]; exact h.sender.enabled)).1
  refine ⟨hsender, ?_, h.received, h.clock⟩
  cases h.stage with
  | through ht => exact .busy (ht.transmit h.sender haccepts)
  | @busy done start b next j r hb =>
    have hnone := p.next?_none_iff.mpr hq
    have hj : 0 < j := Nat.pos_of_ne_zero fun h0 => by
      have hwaits := (hb.underway.waiting h0).2.1
      rw [hnone] at hwaits
      cases hwaits
    cases (hb.underway.shifting hj).2.2.symm.trans hnone
    exact .busy (hb.transmit h.sender hj haccepts)

/-- Another port has got as far with the same characters. -/
structure Resembles (p q : Port) : Prop where
  enabled : q.control.txEnable
  mode : q.mode = p.mode
  baud : q.baud = p.baud
  next : q.next? = p.next?
  txBits : q.txBits = p.txBits
  txShift : q.txShift = p.txShift
  rxBits : q.rxBits = p.rxBits
  rxShift : q.rxShift = p.rxShift
  timer : q.timer = p.timer

theorem Transmission.congr (h : p.Transmission n period time sent ticks) (k : p.Resembles q) :
    q.Transmission n period time sent ticks := by
  obtain ⟨hsender, hperiod⟩ := h.sender.congr k.mode k.baud k.enabled
  refine ⟨hsender, ?_, h.received, h.clock⟩
  cases h.stage with
  | through ht =>
    exact .through ⟨⟨k.next.trans ht.idle.next, k.txBits.trans ht.idle.txBits,
      k.rxBits.trans ht.idle.rxBits, k.rxShift.trans ht.idle.rxShift,
      by rw [k.timer, hperiod, ht.idle.timer]⟩, ht.past, ht.marks⟩
  | busy hb =>
    refine .busy ⟨hb.schedule, hb.lt, ⟨fun h0 => ?_, fun hj => ?_, ?_⟩, by rw [k.timer, hperiod, hb.timer],
      hb.pos, hb.le, hb.due, hb.marks, by rw [k.rxShift, hb.rxShift]⟩
    · rw [k.txBits, k.next]
      exact hb.underway.waiting h0
    · rw [k.txBits, k.txShift, k.next]
      exact hb.underway.shifting hj
    · rw [k.rxBits]
      exact hb.underway.received

/-- Flags of the receiver, of inputs and of interrupts have no part in it. -/
theorem Sender.resembles (h : p.Sender n period) {status : Status} {inputs : Inputs}
    (hs : status.has Status.txReady = p.status.has Status.txReady) :
    p.Resembles { p with status, inputs } :=
  ⟨h.enabled, rfl, rfl, next?_congr (by simp only [queued]; rw [hs]) rfl, rfl, rfl, rfl, rfl, rfl⟩

namespace Transmission

theorem receive (h : p.Transmission n period time sent ticks) :
    p.receive.Transmission n period time sent ticks :=
  h.congr (h.sender.resembles (by simp +decide [Status.has_set]))

theorem input (h : p.Transmission n period time sent ticks) (mask levels : UInt32) :
    (p.input mask levels).port.Transmission n period time sent ticks := by
  simp only [Port.input]
  split
  · exact h.congr (h.sender.resembles (by simp +decide [syncInputs, Status.has_set]))
  · exact h.congr (h.sender.resembles (by simp +decide [Status.has_set]))

/-- The clock of a port that sends keeps to its period, and goes if there is something to send. -/
theorem timer (h : p.Transmission n period time sent ticks) :
    (∃ r, p.timer = ⟨p.period, some r⟩) ∨
      p.timer = ⟨p.period, none⟩ ∧ ¬(p.queued ∨ p.shifting) := by
  cases h.stage with
  | through ht =>
    refine .inr ⟨ht.idle.timer, ?_⟩
    simp [p.next?_none_iff.mp ht.idle.next, Port.shifting, ht.idle.txBits]
  | busy hb => exact .inl ⟨_, hb.timer⟩

theorem kick (h : p.Transmission n period time sent ticks) : p.kick.value = p := by
  rw [value_kick]
  rcases h.timer with ⟨r, hr⟩ | ⟨-, hnone⟩
  · have hstart : p.timer.start p.period = p.timer := by
      rw [hr]
      simp [Timer.start, h.sender.period_ne_zero]
    rw [hstart]
    exact ite_self p
  · exact if_neg fun hc => hnone hc.2

theorem retime (h : p.Transmission n period time sent ticks) : p.retime = p := by
  have hset : p.timer.setPeriod p.period = p.timer := by
    rcases h.timer with ⟨r, hr⟩ | ⟨hr, -⟩ <;> rw [hr] <;>
      simp [Timer.setPeriod, h.sender.period_ne_zero]
  simp only [Port.retime]
  rw [hset]

end Transmission

/-- The part of a port that a write to the control register leaves alone, if it is not a reset. -/
structure Controlled (p q : Port) : Prop where
  same : q = { p with status := q.status, control := q.control, outputs := q.outputs }
  txReady : q.status.has Status.txReady = p.status.has Status.txReady

/-- A write to the control register that leaves the transmitter enabled was no reset. -/
theorem writeControl_enabled {value : UInt16}
    (enabled : (p.writeControl value).value.port.control.txEnable) :
    ∃ q, p.Controlled q ∧ q.control.txEnable ∧ (p.writeControl value).value.port = q.kick.value := by
  simp only [Port.writeControl] at enabled ⊢
  split at enabled
  · simp only [Port.reset, Reported.value_bind, Reported.value_pure, port_drive] at enabled
    exact absurd enabled (by show ¬({} : Control).txEnable = true; decide)
  rename_i hreset
  rw [if_neg hreset]
  generalize hs : (if (⟨value⟩ : Control).iack then p.acknowledge else p) = s at *
  have hacknowledged : p.Controlled s := by
    subst hs
    split
    · exact ⟨rfl, by simp +decide [acknowledge, Status.has_set]⟩
    · exact ⟨rfl, rfl⟩
  have htx : (⟨value⟩ : Control).clearIack.txEnable = (⟨value⟩ : Control).txEnable := by
    simp +decide [Control.txEnable, Control.bit_clearIack]
  generalize hr : Port.drive _ _ = r at *
  have hcontrolled : p.Controlled r.port ∧ r.port.control = (⟨value⟩ : Control).clearIack := by
    subst hr
    rw [port_drive]
    exact ⟨⟨by rw [hacknowledged.same], hacknowledged.txReady⟩, rfl⟩
  by_cases hc : (⟨value⟩ : Control).txEnable
  · rw [if_pos hc]
    refine ⟨r.port, hcontrolled.1, ?_, rfl⟩
    rw [hcontrolled.2, htx, hc]
  · rw [if_neg hc] at enabled
    have hoff : r.port.control.txEnable = false := by
      rw [hcontrolled.2, htx]
      exact Bool.eq_false_iff.mpr hc
    split at enabled <;> exact absurd (hoff.symm.trans enabled) Bool.false_ne_true

theorem Transmission.writeControl (h : p.Transmission n period time sent ticks) {value : UInt16}
    (enabled : (p.writeControl value).value.port.control.txEnable) :
    (p.writeControl value).value.port.Transmission n period time sent ticks := by
  obtain ⟨q, hq, hon, hvalue⟩ := writeControl_enabled enabled
  have hsame := hq.same
  have hresembles : p.Resembles q := by
    refine ⟨hon, ?_, ?_, next?_congr ?_ ?_, ?_, ?_, ?_, ?_, ?_⟩
    case refine_3 => simp only [queued]; rw [hq.txReady]
    all_goals rw [hsame]
  have ht := h.congr hresembles
  rw [hvalue, ht.kick]
  exact ht

structure Keeps (p q : Port) : Prop where
  mode : q.mode = p.mode
  baud : q.baud = p.baud
  enabled : q.control.txEnable

/-- The same mode or baud value is written again. -/
theorem Transmission.writeMode (h : p.Transmission n period time sent ticks) {value : UInt16}
    (hmode : ⟨value⟩ = p.mode) : p.writeMode value = p := by
  simp only [Port.writeMode]
  rw [hmode]
  exact h.retime

theorem Transmission.writeBaud (h : p.Transmission n period time sent ticks) {value : UInt16}
    (hbaud : value = p.baud) : p.writeBaud value = p := by
  simp only [Port.writeBaud]
  rw [hbaud]
  exact h.retime

theorem mode_writeControl {value : UInt16}
    (enabled : (p.writeControl value).value.port.control.txEnable) :
    (p.writeControl value).value.port.mode = p.mode := by
  obtain ⟨q, hq, -, hvalue⟩ := writeControl_enabled enabled
  have hmode : q.mode = p.mode := by rw [hq.same]
  rw [hvalue, value_kick, ← hmode]
  split <;> rfl

/-- Writes to other registers than that of the data, of which the transmitter notices nothing. -/
theorem Transmission.writePort (h : p.Transmission n period time sent ticks) {offset value : UInt32}
    {w : Width} (h0 : offset ≠ 0)
    (keeps : p.Keeps (Controller.writePort p offset value w).value.port) :
    (Controller.writePort p offset value w).value.port.Transmission n period time sent ticks := by
  generalize hr : (Controller.writePort p offset value w).value = r at *
  unfold Controller.writePort at hr
  extract_lets index word mask low high moded misced at hr
  have hmoded : moded.mode = p.mode → moded = p := by
    intro hmode
    by_cases hl : low
    · rw [show moded = p.writeMode word.toUInt16 from if_pos hl] at hmode ⊢
      exact h.writeMode hmode
    · exact if_neg hl
  have hmisced : misced.Transmission n period time sent ticks ∧ misced.baud = p.baud := by
    by_cases hl : low
    · rw [show misced = { p with misc := word.toUInt16 } from if_pos hl]
      exact ⟨h.congr ⟨h.sender.enabled, rfl, rfl, rfl, rfl, rfl, rfl, rfl, rfl⟩, rfl⟩
    · rw [show misced = p from if_neg hl]
      exact ⟨h, rfl⟩
  clear_value moded misced
  rw [if_neg h0] at hr
  split at hr
  · split at hr
    · subst hr
      have hkept := hmoded ((mode_writeControl keeps.enabled).symm.trans keeps.mode)
      subst hkept
      exact h.writeControl keeps.enabled
    · subst hr
      have hkept := hmoded keeps.mode
      subst hkept
      exact h
  split at hr
  · subst hr
    have hbaud := keeps.baud
    simp only [Reported.value_pure] at hbaud ⊢
    split at hbaud
    · have hsame : (word >>> 16).toUInt16 = misced.baud := Eq.trans hbaud hmisced.2.symm
      rw [if_pos ‹_›, hmisced.1.writeBaud hsame]
      exact hmisced.1
    · rw [if_neg ‹_›]
      exact hmisced.1
  · subst hr
    exact h

end R3000.Serial.Port
