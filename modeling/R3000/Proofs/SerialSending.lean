import R3000.Proofs.SerialSchedule

/-! # A serial port that sends

An invariant ties the state of a port to the history of writes: either everything that was written has
gone, or so many bits of one character have, and at most one character waits behind it. Time keeps it,
cycle by cycle. -/
namespace R3000.Serial.Port
variable {p q : Port} {n period time : Nat} {sent : List (Nat × UInt8)} {ticks : List Tick}

/-- A port that is set to send characters of `n` bits, a bit every `period` cycles. -/
structure Sender (n period : Nat) (p : Port) : Prop where
  pos : 0 < period
  enabled : p.control.txEnable
  bits : p.mode.bitsPerChar.toNat = n
  period : p.period.toNat = period

structure Idle (p : Port) : Prop where
  next : p.next? = none
  txBits : p.txBits = 0
  rxBits : p.rxBits = 0
  rxShift : p.rxShift = 0
  timer : p.timer = ⟨p.period, none⟩

structure Through (n period time : Nat) (sent : List (Nat × UInt8)) (ticks : List Tick) (p : Port) :
    Prop where
  idle : p.Idle
  past : ∀ x ∈ starts (n * period) 0 sent, x.1 + n * period ≤ time
  marks : ticks.map Tick.mark = (starts (n * period) 0 sent).flatMap (Serial.bits n period)

/-- Of character `b`, which started at `start` after those in `done`, `j` bits have gone, and the next one
goes in `r` cycles; `next` may wait behind it. -/
structure Busy (n period time : Nat) (sent : List (Nat × UInt8)) (ticks : List Tick)
    (done : List (Nat × UInt8)) (start : Nat) (b : UInt8) (next : Option UInt8) (j : Nat) (r : UInt32)
    (p : Port) : Prop where
  schedule : starts (n * period) 0 sent =
    done ++ (start, b) :: next.toList.map (start + n * period, ·)
  lt : j < n
  underway : p.Underway n b next j
  timer : p.timer = ⟨p.period, some r⟩
  pos : 0 < r.toNat
  le : r.toNat ≤ period
  due : time + r.toNat = start + (j + 1) * period
  marks : ticks.map Tick.mark = done.flatMap (Serial.bits n period) ++ Serial.bits j period (start, b)
  rxShift : p.rxShift.toNat =
    Nat.ofDigits 2 (((ticks.map Tick.sampled).drop (n * done.length)).map Bool.toNat)

inductive Stage (n period time : Nat) (sent : List (Nat × UInt8)) (ticks : List Tick) (p : Port) : Prop
  | through (h : p.Through n period time sent ticks)
  | busy {done : List (Nat × UInt8)} {start : Nat} {b : UInt8} {next : Option UInt8} {j : Nat}
      {r : UInt32} (h : p.Busy n period time sent ticks done start b next j r)

/-- The port sends what is written to it, and has told of what it received. -/
structure Transmission (n period time : Nat) (sent : List (Nat × UInt8)) (ticks : List Tick)
    (p : Port) : Prop where
  sender : p.Sender n period
  stage : p.Stage n period time sent ticks
  received : Received n ticks
  clock : ∀ t ∈ ticks, t.after.outputs.has Lines.clock = !t.before.outputs.has Lines.clock

theorem Sender.congr (h : p.Sender n period) (hmode : q.mode = p.mode) (hbaud : q.baud = p.baud)
    (henabled : q.control.txEnable) : q.Sender n period ∧ q.period = p.period := by
  have hperiod : q.period = p.period := by
    simp only [Port.period]
    rw [hmode, hbaud]
  exact ⟨⟨h.pos, henabled, by rw [hmode, h.bits], by rw [hperiod, h.period]⟩, hperiod⟩

theorem Sender.bits_bounds (h : p.Sender n period) : 5 ≤ n ∧ n ≤ 8 := by
  have hn := bitsPerChar_bounds p.mode
  rw [h.bits] at hn
  exact hn

theorem tick?_none (h : (p.update 1).value.driven = []) (time : Nat) : p.tick? time = none := if_pos h

theorem tick?_some {lines : Lines} (h : (p.update 1).value.driven = [lines]) (time : Nat) :
    p.tick? time = some ⟨time + 1, p, (p.update 1).value⟩ :=
  if_neg (by simp [h])

namespace Busy
variable {done : List (Nat × UInt8)} {start j : Nat} {b : UInt8} {next : Option UInt8} {r : UInt32}

/-- As many ticks have passed as bits have gone. -/
theorem length_ticks (h : p.Busy n period time sent ticks done start b next j r) :
    ticks.length = n * done.length + j := by
  have hmarks := congrArg List.length h.marks
  rwa [List.length_map, List.length_append, length_flatMap_bits, length_bits] at hmarks

/-- The levels sampled since the last character was received, and one more. -/
theorem drop_concat (h : p.Busy n period time sent ticks done start b next j r) (t : Tick) :
    ((ticks ++ [t]).map Tick.sampled).drop (n * done.length) =
        (ticks.map Tick.sampled).drop (n * done.length) ++ [t.sampled] ∧
      ((ticks.map Tick.sampled).drop (n * done.length)).length = j := by
  have hlen := h.length_ticks
  refine ⟨?_, by rw [List.length_drop, List.length_map]; omega⟩
  rw [List.map_append, List.drop_append_of_le_length (by rw [List.length_map]; omega)]
  rfl

theorem rxShift_lt (h : p.Busy n period time sent ticks done start b next j r) :
    p.rxShift.toNat < 2 ^ j := by
  rw [h.rxShift, ← (h.drop_concat (Tick.mk 0 p ⟨p, [], 0⟩)).2]
  exact ofDigits_lt _

/-- What the levels sampled so far make up with one more. -/
theorem ofDigits_next (h : p.Busy n period time sent ticks done start b next j r) (u : Reaction) :
    p.rxShift.toNat + 2 ^ j * (p.inputs.has Inputs.data).toNat =
      Nat.ofDigits 2 ((((ticks ++ [Tick.mk (time + 1) p u]).map Tick.sampled).drop
        (n * done.length)).map Bool.toNat) := by
  obtain ⟨hdrop, hlength⟩ := h.drop_concat (Tick.mk (time + 1) p u)
  rw [hdrop, ofDigits_concat, hlength, h.rxShift]
  rfl

theorem marks_next (h : p.Busy n period time sent ticks done start b next j r) {u : Reaction}
    (hone : r = 1) (hu : u.Sends p (b.toNat.testBit j)) :
    (ticks ++ [Tick.mk (time + 1) p u]).map Tick.mark =
      done.flatMap (Serial.bits n period) ++ Serial.bits (j + 1) period (start, b) := by
  have hdue := h.due
  rw [hone] at hdue
  have hmark : (Tick.mk (time + 1) p u).mark = (start + (j + 1) * period, b.toNat.testBit j) :=
    Prod.ext hdue hu.level
  rw [List.map_append, h.marks, bits_succ, List.append_assoc, List.map_singleton, hmark]

/-- The clock does not expire in the next cycle. -/
theorem wait (h : p.Busy n period time sent ticks done start b next j r) (hr : 1 < r) :
    (p.update 1).value.driven = [] ∧
      (p.update 1).value.port.Busy n period (time + 1) sent ticks done start b next j (r - 1) := by
  have hlt := UInt32.lt_iff_toNat_lt.mp hr
  have hsub : (r - 1).toNat = r.toNat - 1 := UInt32.toNat_sub_of_le _ _ (UInt32.le_of_lt hr)
  have hdue := h.due
  have hle := h.le
  simp only [UInt32.reduceToNat] at hlt
  rw [cycle_waiting h.timer hr]
  refine ⟨rfl, h.schedule, h.lt, ⟨h.underway.waiting, h.underway.shifting, h.underway.received⟩, rfl,
    ?_, ?_, ?_, h.marks, h.rxShift⟩ <;> omega

/-- One bit of a character goes out, and it is not the last one. -/
theorem bit (h : p.Busy n period time sent ticks done start b next j 1) (hs : p.Sender n period)
    (hlt : j + 1 < n) :
    (p.update 1).value.Sends p (b.toNat.testBit j) ∧ (p.update 1).value.Continues p ∧
      (p.update 1).value.port.Busy n period (time + 1) sent
        (ticks ++ [⟨time + 1, p, (p.update 1).value⟩]) done start b next (j + 1) p.period := by
  obtain ⟨-, hle⟩ := hs.bits_bounds
  obtain ⟨hmore, hsends, hcontinues, hport, hshift⟩ :=
    h.underway.tick_continues hlt hle hs.bits hs.enabled h.rxShift_lt
  rw [cycle_due h.timer, hmore, if_pos rfl]
  generalize p.tick.value.1 = u at *
  have hsends := hsends.clocked ⟨p.period, some p.period⟩
  have hperiod := (hs.congr hsends.mode hsends.baud (hsends.control ▸ hs.enabled)).2
  have hdue := h.due
  refine ⟨hsends, hcontinues.clocked _, h.schedule, hlt,
    ⟨hport.waiting, hport.shifting, hport.received⟩, by rw [hperiod]; rfl, ?_, ?_, ?_,
    h.marks_next rfl hsends, hshift.trans (h.ofDigits_next _)⟩
  · rw [hs.period]
    exact hs.pos
  · rw [hs.period]
  · rw [hs.period, Nat.succ_mul (j + 1)]
    simp only [UInt32.reduceToNat] at hdue
    omega

/-- The last bit of a character goes out. -/
theorem last (h : p.Busy n period time sent ticks done start b next j 1) (hs : p.Sender n period)
    (hlast : j + 1 = n) :
    (p.update 1).value.Sends p (b.toNat.testBit j) ∧
      (p.update 1).value.Completes p
        (p.rxShift.toNat + 2 ^ j * (p.inputs.has Inputs.data).toNat) ∧
      (p.update 1).value.port.Stage n period (time + 1) sent
        (ticks ++ [⟨time + 1, p, (p.update 1).value⟩]) := by
  obtain ⟨-, hle⟩ := hs.bits_bounds
  obtain ⟨hmore, hsends, hcompletes, hnext, htx, hrx, hshift⟩ :=
    h.underway.tick_completes hlast hle hs.bits hs.enabled h.rxShift_lt
  have hdue := h.due
  simp only [UInt32.reduceToNat] at hdue
  rw [hlast] at hdue
  rw [cycle_due h.timer, hmore]
  generalize p.tick.value.1 = u at *
  have hsends := hsends.clocked ⟨p.period, if next.isSome then some p.period else none⟩
  have hperiod := (hs.congr hsends.mode hsends.baud (hsends.control ▸ hs.enabled)).2
  have hmarks := h.marks_next rfl hsends
  rw [hlast] at hmarks
  refine ⟨hsends, hcompletes.clocked _, ?_⟩
  cases next with
  | none =>
    refine .through ⟨⟨hnext, htx, hrx, hshift, by rw [hperiod]; rfl⟩, ?_, ?_⟩
    · intro x hx
      have hpairs := (pairwise_starts (n * period) 0 sent).1
      rw [h.schedule] at hx hpairs
      rcases List.mem_append.mp hx with hx | hx
      · have hbefore := (List.pairwise_append.mp hpairs).2.2 x hx (start, b) (List.mem_cons_self)
        dsimp only at hbefore
        omega
      · simp only [Option.toList_none, List.map_nil, List.mem_singleton] at hx
        rw [hx]
        dsimp only
        omega
    · rw [hmarks, h.schedule]
      simp
  | some c =>
    have hlength := h.length_ticks
    have hticks : (ticks ++ [Tick.mk (time + 1) p (u.clocked ⟨p.period, some p.period⟩)]).length =
        n * (done ++ [(start, b)]).length := by
      simp only [List.length_append, List.length_singleton, hlength, Nat.mul_add]
      omega
    refine .busy (?_ : Busy n period _ sent _ (done ++ [(start, b)]) (start + n * period) c none 0
      p.period _)
    refine ⟨?_, by omega, ⟨fun _ => ⟨htx, hnext, rfl⟩, nofun, ?_⟩, by rw [hperiod]; rfl,
      ?_, ?_, ?_, ?_, ?_⟩
    · rw [h.schedule]
      simp
    · show u.port.rxBits.toNat = 0
      rw [hrx]
      rfl
    · rw [hs.period]
      exact hs.pos
    · rw [hs.period]
    · rw [hs.period]
      omega
    · rw [hmarks]
      simp [Serial.bits]
    · rw [List.drop_eq_nil_of_le (by rw [List.length_map]; exact hticks.le)]
      show u.port.rxShift.toNat = 0
      rw [hshift]
      rfl

end Busy

namespace Transmission

/-- A port that sends is in good order. -/
theorem wellFormed (h : p.Transmission n period time sent ticks) : p.WellFormed := by
  have hn := h.sender.bits_bounds
  cases h.stage with
  | through ht =>
    refine ⟨fun r hr => ?_, ?_, fun _ => ht.idle.rxBits⟩
    · rw [ht.idle.timer] at hr
      cases hr
    · rw [ht.idle.txBits, ht.idle.rxBits]
      decide
  | @busy done start b next j r hb =>
    have hlt := hb.lt
    have hcount : p.txBits.toNat + p.rxBits.toNat ≤ 8 ∧ (p.txBits = 0 → j = 0) := by
      cases Nat.eq_zero_or_pos j with
      | inl h0 => exact ⟨by rw [(hb.underway.waiting h0).1, hb.underway.received, h0]; decide, fun _ => h0⟩
      | inr hj =>
        have htx := (hb.underway.shifting hj).1
        rw [hb.underway.received, htx]
        refine ⟨by omega, fun h0 => ?_⟩
        rw [h0, UInt8.toNat_zero] at htx
        omega
    refine ⟨fun u hu => ?_, hcount.1, fun h0 => UInt8.toNat_inj.mp ?_⟩
    · rw [hb.timer] at hu ⊢
      cases hu
      refine ⟨UInt32.lt_iff_toNat_lt.mpr hb.pos, UInt32.lt_iff_toNat_lt.mpr ?_⟩
      exact lt_of_lt_of_eq h.sender.pos h.sender.period.symm
    · rw [hb.underway.received, hcount.2 h0]
      rfl

/-- A tick is reported with those before it. -/
theorem sends {level : Bool} (h : p.Transmission n period time sent ticks)
    (hs : (p.update 1).value.Sends p level)
    (hstage : (p.update 1).value.port.Stage n period (time + 1) sent
      (ticks ++ [⟨time + 1, p, (p.update 1).value⟩]))
    (hreceived : Received n (ticks ++ [⟨time + 1, p, (p.update 1).value⟩])) :
    (p.update 1).value.port.Transmission n period (time + 1) sent
      (ticks ++ (p.tick? time).toList) := by
  rw [tick?_some hs.driven]
  refine ⟨(h.sender.congr hs.mode hs.baud (hs.control ▸ h.sender.enabled)).1, hstage, hreceived, ?_⟩
  intro t ht
  rcases List.mem_append.mp ht with ht | ht
  · exact h.clock t ht
  · cases List.mem_singleton.mp ht
    exact hs.clock

/-- One cycle passes. -/
theorem cycle (h : p.Transmission n period time sent ticks) :
    (p.update 1).value.port.Transmission n period (time + 1) sent
      (ticks ++ (p.tick? time).toList) := by
  cases h.stage with
  | through ht =>
    have hstopped : (p.update 1).value = ⟨p, [], 0⟩ :=
      update_stopped (by simp [Timer.running, ht.idle.timer]) 1
    rw [tick?_none (by rw [hstopped]), hstopped, Option.toList_none, List.append_nil]
    exact ⟨h.sender, .through ⟨ht.idle, fun x hx => Nat.le_succ_of_le (ht.past x hx), ht.marks⟩,
      h.received, h.clock⟩
  | @busy done start b next j r hb =>
    by_cases hr : 1 < r
    · obtain ⟨hdriven, hnext⟩ := hb.wait hr
      rw [tick?_none hdriven, Option.toList_none, List.append_nil]
      have hvalue := cycle_waiting hb.timer hr
      rw [hvalue] at hnext ⊢
      exact ⟨⟨h.sender.pos, h.sender.enabled, h.sender.bits, h.sender.period⟩, .busy hnext, h.received, h.clock⟩
    · have hone : r = 1 := by
        have hpos := hb.pos
        rw [UInt32.lt_iff_toNat_lt] at hr
        apply UInt32.toNat_inj.mp
        simp only [UInt32.reduceToNat] at *
        omega
      subst hone
      have hlen := hb.length_ticks
      have hdvd : n ∣ ticks.length + 1 ↔ n ∣ j + 1 := by
        rw [hlen, Nat.add_assoc]
        exact Nat.dvd_add_right (Nat.dvd_mul_right n _)
      have hlt := hb.lt
      by_cases hlast : j + 1 = n
      · obtain ⟨hs, hcompletes, hstage⟩ := hb.last h.sender hlast
        refine h.sends hs hstage (h.received.concat ?_)
        rw [if_pos (hdvd.mpr (hlast ▸ Nat.dvd_refl n)), show ticks.length + 1 - n = n * done.length by omega]
        rw [← hb.ofDigits_next]
        exact hcompletes
      · obtain ⟨hs, hcontinues, hnext⟩ := hb.bit h.sender (by omega)
        refine h.sends hs (.busy hnext) (h.received.concat ?_)
        rw [if_neg fun hd => ?_]
        · exact hcontinues
        · have hle := Nat.le_of_dvd (Nat.succ_pos j) (hdvd.mp hd)
          omega

/-- Some cycles pass. -/
theorem cycling (h : p.Transmission n period time sent ticks) (c : Nat) :
    (p.cycling c).port.Transmission n period (time + c) sent (ticks ++ p.ticking time c) := by
  induction c with
  | zero =>
    rw [ticking, List.append_nil]
    exact h
  | succ c ih =>
    rw [ticking, ← List.append_assoc]
    exact ih.cycle

theorem update (h : p.Transmission n period time sent ticks) (c : UInt32) :
    (p.update c).value.port.Transmission n period (time + c.toNat) sent
      (ticks ++ p.ticking time c.toNat) := by
  rw [update_eq_cycling h.wellFormed]
  exact h.cycling c.toNat

end Transmission

end R3000.Serial.Port
