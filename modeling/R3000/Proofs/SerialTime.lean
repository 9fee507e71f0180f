import R3000.Proofs.SerialSafety
import R3000.Proofs.WordBits

/-! # Time on a serial port, in one slice or in two

A bit clock expires as often in one slice of time as in its parts, and is at the same phase afterwards.
A batch of ticks may stop the clock halfway, and then whatever would be left of it does nothing; so a
port drives the same levels, asks for as many interrupts and ends in the same state. -/
namespace R3000.Serial

namespace Timer

/-- How often a clock that is due in `r` cycles expires within `a` cycles. -/
def due (period r a : Nat) : Nat := if a < r then 0 else 1 + (a - r) / period

/-- In how many cycles it is due after them. -/
def left (period r a : Nat) : Nat := if a < r then r - a else period - (a - r) % period

section Phase
variable {period : Nat}

/-- Time short of the next expiry is time before it. -/
theorem due_left_before {r a : Nat} (h : a < r) (c : Nat) :
    due period (left period r a) c = due period r (a + c) ∧
      left period (left period r a) c = left period r (a + c) := by
  have hover : c - (r - a) = a + c - r := by omega
  unfold due left
  rw [if_pos h, hover]
  by_cases hc : a + c < r
  · rw [if_pos hc, if_pos hc, if_pos (by omega), if_pos (by omega)]
    omega
  · rw [if_neg hc, if_neg hc, if_neg (by omega), if_neg (by omega)]
    exact ⟨rfl, rfl⟩

/-- After an expiry the clock counts on from its last reload, `past % period` cycles ago. -/
theorem div_mod_add (hp : 0 < period) (past c : Nat) :
    (past + c) / period = past / period + due period (period - past % period) c ∧
      period - (past + c) % period = left period (period - past % period) c := by
  have hmod := Nat.mod_lt past hp
  have hover := Nat.div_add_mod past period
  simp only [due, left]
  split
  · have hsum : past + c = past % period + c + period * (past / period) := by omega
    rw [hsum, Nat.add_mul_div_left _ _ hp, Nat.add_mul_mod_self_left, Nat.div_eq_of_lt (by omega),
      Nat.mod_eq_of_lt (by omega)]
    omega
  · have hsum : past + c = c - (period - past % period) + period * (past / period + 1) := by
      rw [Nat.mul_add]
      omega
    rw [hsum, Nat.add_mul_div_left _ _ hp, Nat.add_mul_mod_self_left]
    omega

theorem due_add (hp : 0 < period) (r a c : Nat) :
    due period r (a + c) = due period r a + due period (left period r a) c := by
  by_cases h : a < r
  · rw [(due_left_before h c).1, show due period r a = 0 from if_pos h, Nat.zero_add]
  · have hsum := (div_mod_add hp (a - r) c).1
    have hleft : left period r a = period - (a - r) % period := if_neg h
    have hfirst : due period r a = 1 + (a - r) / period := if_neg h
    have hboth : due period r (a + c) = 1 + (a - r + c) / period := by
      simp only [due]
      rw [if_neg (by omega), show a + c - r = a - r + c by omega]
    rw [hleft, hfirst, hboth, hsum, Nat.add_assoc]

theorem left_add (hp : 0 < period) (r a c : Nat) :
    left period r (a + c) = left period (left period r a) c := by
  by_cases h : a < r
  · exact (due_left_before h c).2.symm
  · have hleft : left period r a = period - (a - r) % period := if_neg h
    have hboth : left period r (a + c) = period - (a - r + c) % period := by
      simp only [left]
      rw [if_neg (by omega), show a + c - r = a - r + c by omega]
    rw [hleft, hboth, (div_mod_add hp (a - r) c).2]

end Phase

variable {t : Timer} {r a c : UInt32}

theorem toNat_expiries (h : t.WellFormed) (hr : t.remaining = some r) (a : UInt32) :
    (t.expiries a).toNat = due t.period.toNat r.toNat a.toNat := by
  have hpos := UInt32.lt_iff_toNat_lt.mp (h r hr).1
  have hdiv := Nat.div_le_self (a.toNat - r.toNat) t.period.toNat
  have ha := a.toNat_lt
  simp only [expiries, due]
  rw [hr]
  dsimp only
  by_cases hlt : a < r
  · rw [if_pos hlt, if_pos (UInt32.lt_iff_toNat_lt.mp hlt)]
    rfl
  · rw [if_neg hlt, if_neg (mt UInt32.lt_iff_toNat_lt.mpr hlt), UInt32.toNat_add, UInt32.toNat_div,
      UInt32.toNat_sub_of_le _ _ (UInt32.not_lt.mp hlt)]
    exact Nat.mod_eq_of_lt (by simp only [UInt32.reduceToNat] at *; omega)

theorem remaining_advance (h : t.WellFormed) (hr : t.remaining = some r) (a : UInt32) :
    ∃ s, t.advance a = { t with remaining := some s } ∧
      s.toNat = left t.period.toNat r.toNat a.toNat := by
  have hmod := UInt32.mod_lt (a - r) (h r hr).2
  simp only [advance, left]
  rw [hr]
  refine ⟨_, rfl, ?_⟩
  by_cases hlt : a < r
  · rw [if_pos hlt, if_pos (UInt32.lt_iff_toNat_lt.mp hlt),
      UInt32.toNat_sub_of_le _ _ (UInt32.le_of_lt hlt)]
  · rw [if_neg hlt, if_neg (mt UInt32.lt_iff_toNat_lt.mpr hlt),
      UInt32.toNat_sub_of_le _ _ (UInt32.le_of_lt hmod), UInt32.toNat_mod,
      UInt32.toNat_sub_of_le _ _ (UInt32.not_lt.mp hlt)]

theorem advance_stopped (h : t.remaining = none) (a : UInt32) : t.advance a = t := by
  simp only [advance]
  rw [h]

theorem expiries_stopped (h : t.remaining = none) (a : UInt32) : t.expiries a = 0 := by
  simp only [expiries]
  rw [h]

theorem expiries_add (h : t.WellFormed) (fits : a.toNat + c.toNat < 0x100000000) :
    (t.expiries (a + c)).toNat = (t.expiries a).toNat + ((t.advance a).expiries c).toNat := by
  cases hr : t.remaining with
  | none =>
    rw [advance_stopped hr, expiries_stopped hr, expiries_stopped hr, expiries_stopped hr]
    rfl
  | some r =>
    have ht := wellFormed_advance h a
    obtain ⟨s, hs, hsn⟩ := remaining_advance h hr a
    rw [hs] at ht ⊢
    rw [toNat_expiries h hr, toNat_expiries h hr, toNat_expiries ht rfl, Word.toNat_add_of_fits fits, hsn]
    exact due_add (UInt32.lt_iff_toNat_lt.mp (h r hr).2) _ _ _

theorem advance_add (h : t.WellFormed) (fits : a.toNat + c.toNat < 0x100000000) :
    t.advance (a + c) = (t.advance a).advance c := by
  cases hr : t.remaining with
  | none => rw [advance_stopped hr, advance_stopped hr, advance_stopped hr]
  | some r =>
    have ht := wellFormed_advance h a
    obtain ⟨s, hs, hsn⟩ := remaining_advance h hr a
    rw [hs] at ht ⊢
    obtain ⟨u, hu, hun⟩ := remaining_advance ht rfl c
    obtain ⟨v, hv, hvn⟩ := remaining_advance h hr (a + c)
    have huv : v = u := by
      rw [← UInt32.toNat_inj, hvn, hun, hsn, Word.toNat_add_of_fits fits]
      exact left_add (UInt32.lt_iff_toNat_lt.mp (h r hr).2) _ _ _
    rw [hu, hv, huv]

theorem period_advance (t : Timer) (a : UInt32) : (t.advance a).period = t.period := by
  simp only [advance]
  split <;> rfl

theorem running_advance (t : Timer) (a : UInt32) : (t.advance a).running = t.running := by
  simp only [advance]
  split
  · rfl
  · simp only [running]
    rw [‹t.remaining = _›]
    rfl

end Timer

namespace Port

def clocked (p : Port) (t : Timer) : Port := { p with timer := t }

end Port

namespace Reaction

def before (r s : Reaction) : Reaction := ⟨s.port, r.driven ++ s.driven, r.raises + s.raises⟩

def clocked (r : Reaction) (t : Timer) : Reaction := { r with port := r.port.clocked t }

end Reaction

namespace Port

theorem loadChar_clocked (p : Port) (t : Timer) :
    (p.clocked t).loadChar = p.loadChar.map (·.clocked t) := by
  simp only [loadChar]
  split
  · rw [if_pos (show p.shifting from ‹_›)]
    rfl
  rw [if_neg (show ¬p.shifting from ‹_›)]
  split
  · rw [if_pos (show p.queued && p.control.txEnable from ‹_›)]
    rfl
  · rw [if_neg (show ¬(p.queued && p.control.txEnable) from ‹_›)]
    rfl

theorem shiftBit_clocked (p : Port) (t : Timer) :
    (p.clocked t).shiftBit = p.shiftBit.clocked t := by
  unfold shiftBit drive
  dsimp only
  split
  · rw [if_pos (show p.bitLines = p.outputs from ‹_›)]
    rfl
  · rw [if_neg (show ¬p.bitLines = p.outputs from ‹_›)]
    rfl

/-- A tick neither reads the bit clock nor changes it. -/
theorem tick_clocked (p : Port) (t : Timer) :
    (p.clocked t).tick.value = (p.tick.value.1.clocked t, p.tick.value.2) := by
  simp only [tick]
  rw [loadChar_clocked]
  cases p.loadChar with
  | none => rfl
  | some q =>
    dsimp only [Option.map_some]
    rw [Reported.value_bind, Reported.value_bind, Reported.value_bind, Reported.value_bind,
      shiftBit_clocked]
    generalize q.shiftBit = r
    rw [show (r.clocked t).port.shifting = r.port.shifting from rfl,
      show (r.clocked t).port.finishChar = r.port.finishChar.clocked t from rfl,
      show (r.port.finishChar.clocked t).control = r.port.finishChar.control from rfl]
    split
    · rfl
    · split <;> rfl

theorem ticks_succ (n : Nat) (p : Port) :
    (ticks (n + 1) p).value =
      if p.tick.value.2 then p.tick.value.1.before (ticks n p.tick.value.1.port).value
      else p.tick.value.1.clocked p.tick.value.1.port.timer.stop := by
  rw [ticks, Reported.value_bind]
  obtain ⟨r, more⟩ := p.tick.value
  cases more <;> rfl

theorem timer_tick (p : Port) : p.tick.value.1.port.timer = p.timer := by
  have h := tick_clocked p p.timer
  rw [show p.clocked p.timer = p from rfl] at h
  rw [h]
  rfl

/-- Ticks leave the bit clock alone, or stop it. -/
theorem timer_ticks (n : Nat) (p : Port) :
    (ticks n p).value.port.timer = p.timer ∨ (ticks n p).value.port.timer = p.timer.stop := by
  induction n generalizing p with
  | zero => exact .inl rfl
  | succ n ih =>
    rw [ticks_succ]
    split
    · rw [← timer_tick p]
      exact ih _
    · rw [← timer_tick p]
      exact .inr rfl

/-- Ticks in one batch, or in two with the bit clock changed in between: once they have stopped the
clock, nothing is left to do. -/
theorem ticks_add (n k : Nat) (p : Port) {t u : Timer} (ht : t.running) (hp : u.period = t.period) :
    (ticks (n + k) (p.clocked u)).value =
      let r := (ticks n (p.clocked t)).value
      if r.port.timer.running then r.before (ticks k (r.port.clocked u)).value else r := by
  induction n generalizing p with
  | zero =>
    rw [Nat.zero_add]
    show _ = if t.running then _ else _
    rw [if_pos ht]
    show _ = Reaction.mk _ ([] ++ _) (0 + _)
    rw [List.nil_append, Nat.zero_add]
    rfl
  | succ n ih =>
    rw [Nat.succ_add, ticks_succ, ticks_succ, tick_clocked, tick_clocked]
    obtain ⟨⟨q, driven, raises⟩, more⟩ := p.tick.value
    cases more with
    | true =>
      rw [if_pos rfl, if_pos rfl]
      show Reaction.before _ (ticks (n + k) (q.clocked u)).value = _
      rw [ih]
      dsimp only [Reaction.before, Reaction.clocked]
      split
      · rw [List.append_assoc, Nat.add_assoc]
      · rfl
    | false =>
      rw [if_neg nofun, if_neg nofun]
      show Reaction.mk (q.clocked u.stop) _ _ = Reaction.mk (q.clocked t.stop) _ _
      simp only [Timer.stop]
      rw [hp]
      rfl

theorem value_update (p : Port) (cycles : UInt32) :
    (p.update cycles).value =
      (ticks (p.timer.expiries cycles).toNat (p.clocked (p.timer.advance cycles))).value := rfl

/-- Time passes by a port whose clock stands still. -/
theorem update_stopped {p : Port} (h : p.timer.running = false) (cycles : UInt32) :
    (p.update cycles).value = ⟨p, [], 0⟩ := by
  have hr : p.timer.remaining = none := Option.not_isSome_iff_eq_none.mp (Bool.eq_false_iff.mp h)
  rw [value_update, Timer.expiries_stopped hr, Timer.advance_stopped hr]
  rfl

/-- Time passes on a port in one slice as it does in two. -/
theorem update_add {p : Port} {a c : UInt32} (h : p.WellFormed)
    (fits : a.toNat + c.toNat < 0x100000000) :
    (p.update (a + c)).value =
      (p.update a).value.before ((p.update a).value.port.update c).value := by
  have still : ∀ {r : Reaction}, r.port.timer.running = false →
      r.before (r.port.update c).value = r := by
    intro r hr
    rw [update_stopped hr]
    show Reaction.mk r.port (r.driven ++ []) (r.raises + 0) = r
    rw [List.append_nil, Nat.add_zero]
  cases hrun : p.timer.running with
  | false =>
    rw [update_stopped hrun, update_stopped hrun, still hrun]
  | true =>
    have ht : (p.timer.advance a).running := (Timer.running_advance _ _).trans hrun
    rw [value_update p (a + c), Timer.expiries_add h.timer fits, Timer.advance_add h.timer fits,
      ticks_add _ _ p ht (Timer.period_advance _ _), ← value_update]
    dsimp only
    split
    · rename_i hr
      rw [value_update _ c]
      rcases timer_ticks (p.timer.expiries a).toNat (p.clocked (p.timer.advance a)) with hk | hs
      · rw [← value_update] at hk
        rw [hk]
        rfl
      · rw [← value_update] at hs
        rw [hs] at hr
        cases hr
    · exact (still (Bool.eq_false_iff.mpr ‹_›)).symm

end Port
end R3000.Serial
