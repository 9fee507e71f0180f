import R3000.Proofs.SerialWrites

/-! # Transmission on a serial port

Whatever a sender does in keeping with the flags and settings of a port, the characters that it writes go
out in the order of the writes, whole and on time, and the listener is told of every bit. -/
namespace R3000.Serial

namespace Operation

/-- What a sender may do with port `i`: write a character while none waits, write to other registers in a
way that keeps the settings of the transmitter, read, and present inputs; time may pass. With the
other port anything may be done. -/
def Admitted (i : Fin 2) (p : Port) : Operation → Prop
  | .write port offset value w => port = i →
    if offset = 0 then p.status.has Status.txReady
    else p.Keeps (Controller.writePort p offset value w).value.port
  | .reset => False
  | _ => True

/-- The character that an operation writes to port `i`, with the time when it does. -/
def written (i : Fin 2) (time : Nat) : Operation → List (Nat × UInt8)
  | .write port offset value _ => if port = i ∧ offset = 0 then [(time, value.toUInt8)] else []
  | _ => []

def ticks (p : Port) (time : Nat) : Operation → List Tick
  | .update cycles => p.ticking time cycles.toNat
  | _ => []

/-- Whatever a sender may do, the port goes on sending. -/
theorem transmission {n period time : Nat} {sent : List (Nat × UInt8)} {before : List Tick} {p : Port}
    (h : p.Transmission n period time sent before) {i : Fin 2} {op : Operation}
    (admitted : op.Admitted i p) :
    (op.reaction i p).port.Transmission n period (time + op.cycles) (sent ++ op.written i time)
      (before ++ op.ticks p time) := by
  cases op with
  | read port offset w =>
    simp only [reaction, cycles, written, ticks, List.append_nil, Nat.add_zero]
    split
    · dsimp only
      split
      · exact h.receive
      · exact h
    · exact h
  | write port offset value w =>
    simp only [reaction, cycles, written, ticks, List.append_nil, Nat.add_zero]
    by_cases hp : port = i
    · have hadmitted := admitted hp
      rw [if_pos hp]
      by_cases h0 : offset = 0
      · rw [if_pos h0] at hadmitted
        subst h0
        rw [if_pos ⟨hp, rfl⟩]
        exact h.transmit (by simp [Port.queued, hadmitted]) value.toUInt8
      · rw [if_neg h0] at hadmitted
        rw [if_neg fun hc => h0 hc.2, List.append_nil]
        exact h.writePort h0 hadmitted
    · rw [if_neg hp, if_neg fun hc => hp hc.1, List.append_nil]
      exact h
  | input port mask levels =>
    simp only [reaction, cycles, written, ticks, List.append_nil, Nat.add_zero]
    split
    · exact h.input mask levels
    · exact h
  | update cycles =>
    simp only [written, List.append_nil]
    exact h.update cycles
  | reset => exact absurd admitted id

end Operation

section History
variable {δ : Type} {s : Nat → Bus δ} {op : Nat → Operation} {i : Fin 2} {n period : Nat}

def elapsed (op : Nat → Operation) : Nat → Nat
  | 0 => 0
  | k + 1 => elapsed op k + (op k).cycles

def sent (op : Nat → Operation) (i : Fin 2) : Nat → List (Nat × UInt8)
  | 0 => []
  | k + 1 => sent op i k ++ (op k).written i (elapsed op k)

def ticked (s : Nat → Bus δ) (op : Nat → Operation) (i : Fin 2) : Nat → List Tick
  | 0 => []
  | k + 1 => ticked s op i k ++ (op k).ticks ((s k).serial.port i) (elapsed op k)

/-- What has become of the characters that were sent, when `time` cycles have passed. -/
structure Transmitted (n period time : Nat) (sent : List (Nat × UInt8)) (ticks : List Tick) : Prop where
  /-- The ticks are the bits of the characters that are due by then, each on time. -/
  schedule : ticks.map Tick.mark =
    ((starts (n * period) 0 sent).flatMap (bits n period)).filter (·.1 ≤ time)
  /-- The levels of the data line are the bits of the characters in the order of the writes. -/
  levels : ticks.map Tick.level <+: sent.flatMap fun x => (List.range n).map x.2.toNat.testBit
  clock : ∀ t ∈ ticks, t.after.outputs.has Lines.clock = !t.before.outputs.has Lines.clock
  received : Received n ticks

namespace Port
variable {time : Nat} {sent : List (Nat × UInt8)} {ticks : List Tick} {p : Port}

theorem Through.marks_due (h : p.Through n period time sent ticks) :
    ticks.map Tick.mark = ((starts (n * period) 0 sent).flatMap (Serial.bits n period)).filter
      (·.1 ≤ time) := by
  rw [due_all h.past, h.marks]

theorem Busy.marks_due {done : List (Nat × UInt8)} {start j : Nat} {b : UInt8} {next : Option UInt8}
    {r : UInt32} (h : p.Busy n period time sent ticks done start b next j r) :
    ticks.map Tick.mark = ((starts (n * period) 0 sent).flatMap (Serial.bits n period)).filter
      (·.1 ≤ time) := by
  have hdue := h.due
  have hpos := h.pos
  have hle := h.le
  have hlt := h.lt
  rw [Nat.succ_mul] at hdue
  have hpairs := (pairwise_starts (n * period) 0 sent).1
  rw [h.schedule] at hpairs ⊢
  have hdone : ∀ x ∈ done, x.1 + n * period ≤ time := by
    intro x hx
    have hbefore := (List.pairwise_append.mp hpairs).2.2 x hx (start, b) List.mem_cons_self
    dsimp only at hbefore
    omega
  have hend : time < start + n * period := by
    have hmul := Nat.mul_le_mul_right period hlt
    rw [Nat.succ_mul] at hmul
    omega
  have hnext : ((next.toList.map (start + n * period, ·)).flatMap (Serial.bits n period)).filter
      (·.1 ≤ time) = [] := by
    cases next with
    | none => rfl
    | some c =>
      have hnone : (Serial.bits n period (start + n * period, c)).filter (·.1 ≤ time) =
          Serial.bits 0 period (start + n * period, c) :=
        due_bits (Nat.zero_le n) (fun h0 => absurd h0 (Nat.lt_irrefl 0)) fun _ => by dsimp only; omega
      simpa [Serial.bits] using hnone
  rw [List.flatMap_append, List.filter_append, due_all hdone, List.flatMap_cons, List.filter_append,
    hnext, List.append_nil, due_bits hlt.le (fun _ => by dsimp only; omega), h.marks]
  intro _
  dsimp only
  rw [Nat.succ_mul]
  omega

theorem Busy.levels {done : List (Nat × UInt8)} {start j : Nat} {b : UInt8} {next : Option UInt8}
    {r : UInt32} (h : p.Busy n period time sent ticks done start b next j r) :
    (ticks.map Tick.mark).map (·.2) <+:
      ((starts (n * period) 0 sent).flatMap (Serial.bits n period)).map (·.2) := by
  rw [h.marks, h.schedule, List.flatMap_append, List.flatMap_cons, bits_split h.lt.le]
  refine List.IsPrefix.map _ ?_
  rw [List.append_assoc, ← List.append_assoc]
  exact List.prefix_append _ _

theorem Transmission.result (h : p.Transmission n period time sent ticks) :
    Transmitted n period time sent ticks := by
  have hlevels : (ticks.map Tick.mark).map (·.2) <+:
      ((starts (n * period) 0 sent).flatMap (Serial.bits n period)).map (·.2) → 
      ticks.map Tick.level <+: sent.flatMap fun x => (List.range n).map x.2.toNat.testBit := by
    intro hp
    rw [snd_flatMap_bits, snd_starts, List.map_map, List.flatMap_map] at hp
    exact hp
  cases h.stage with
  | through ht =>
    exact ⟨ht.marks_due, hlevels (ht.marks ▸ List.prefix_rfl), h.clock, h.received⟩
  | busy hb => exact ⟨hb.marks_due, hlevels hb.levels, h.clock, h.received⟩

end Port

/-- The ticks of some cycles show outside: the port is as they leave it, the listener is told of the
outputs at each of them, and the interrupt source of the port is raised if one of them asks for it. -/
structure Shows (i : Fin 2) (cycles : UInt32) (time : Nat) (b : Bus δ) (r : Record) (t : Bus δ) :
    Prop where
  port : t.serial.port i = ((b.serial.port i).cycling cycles.toNat).port
  lines : r.linesTo i =
    b.serial.heard i (((b.serial.port i).ticking time cycles.toNat).map (·.after.outputs))
  pending : Word.bit t.int.pending (7 + i) = (Word.bit b.int.pending (7 + i) ||
    ((b.serial.port i).ticking time cycles.toNat).any (·.reaction.raises != 0))

theorem bit_raised (s : UInt32) (n : Nat) (c : Interrupt.Controller) (k : Nat) :
    Word.bit (c.raised s n).pending k = (Word.bit c.pending k || (n != 0 && Word.bit s k)) := by
  induction n generalizing c with
  | zero => exact (Bool.or_false _).symm
  | succ n ih =>
    rw [Interrupt.Controller.raised_succ, ih, Interrupt.Controller.value_raise]
    dsimp only
    rw [Word.bit_or]
    cases Word.bit c.pending k <;> cases Word.bit s k <;> simp

/-- What both ports raise, as the source of one of them shows it. -/
theorem bit_raised_both (c : Interrupt.Controller) (n : Fin 2 → Nat) (i : Fin 2) :
    Word.bit ((c.raised (source 0) (n 0)).raised (source 1) (n 1)).pending (7 + i) =
      (Word.bit c.pending (7 + i) || n i != 0) := by
  have hsource : ∀ j : Fin 2, Word.bit (source j) (7 + i) = decide (j = i) := by decide +revert
  rw [bit_raised, bit_raised, hsource, hsource]
  match i with
  | 0 => simp
  | 1 => simp

theorem sum_bne_zero (l : List Tick) :
    ((l.map (·.reaction.raises)).sum != 0) = l.any (·.reaction.raises != 0) := by
  induction l with
  | nil => rfl
  | cons t l ih =>
    rw [List.map_cons, List.sum_cons, List.any_cons, ← ih]
    cases t.reaction.raises <;> simp

theorem shows_update (b : Bus δ) (cycles : UInt32) (h : (b.serial.port i).WellFormed) (time : Nat) :
    Shows i cycles time b ((Operation.update cycles).run b).record
      ((Operation.update cycles).run b).value.2 := by
  have hr := Bus.run_reacted (.update cycles) b
  obtain ⟨hdriven, hraises⟩ := Port.update_ticking h time cycles
  refine ⟨?_, (hr.lines i).trans (congrArg _ hdriven), ?_⟩
  · rw [hr.ports, ← Port.update_eq_cycling h]
    rfl
  · rw [hr.int]
    refine (bit_raised_both b.int (fun i => ((b.serial.port i).update cycles).value.raises) i).trans ?_
    rw [hraises, sum_bne_zero]

/-- A consistent port whose transmitter is empty is idle. -/
theorem Port.Consistent.idle_of_empty {p : Port} (h : p.Consistent)
    (empty : p.status.has Status.txEmpty) : p.Idle := by
  obtain ⟨hready, hbits⟩ := h.txEmpty.mp empty
  have hqueued : p.queued = false := by simp [Port.queued, hready]
  have hstopped : p.timer.remaining = none := by
    cases hr : p.timer.remaining with
    | none => rfl
    | some r =>
      have hrun := (h.running r hr).2.2
      simp [hqueued, Port.shifting, hbits] at hrun
  have hperiod : p.timer.period = p.period := by
    rw [← UInt32.toNat_inj, h.period, Port.toNat_period]
  refine ⟨p.next?_none_iff.mpr hqueued, hbits, (h.idle hbits).1, (h.idle hbits).2, ?_⟩
  rw [← hperiod, ← hstopped]

theorem Operated.transmission (hs : Operated s op)
    (h : ((s 0).serial.port i).Transmission n period 0 [] [])
    (admitted : ∀ k, (op k).Admitted i ((s k).serial.port i)) (k : Nat) :
    ((s k).serial.port i).Transmission n period (elapsed op k) (sent op i k) (ticked s op i k) := by
  induction k with
  | zero => exact h
  | succ k ih =>
    rw [hs.port]
    exact Operation.transmission ih (admitted k)

/-- Transmission loses, doubles and reorders nothing. From when the transmitter of a port is empty and
enabled and its bit clock is set, and as long as a sender does only what it may, the characters that are
written go out in order and on time, and as many come in. -/
theorem Operated.transmitted (hs : Operated s op) (consistent : ((s 0).serial.port i).Consistent)
    (empty : ((s 0).serial.port i).status.has Status.txEmpty)
    (enabled : ((s 0).serial.port i).control.txEnable) (moving : ((s 0).serial.port i).period ≠ 0)
    (admitted : ∀ k, (op k).Admitted i ((s k).serial.port i)) (k : Nat) :
    Transmitted ((s 0).serial.port i).mode.bitsPerChar.toNat ((s 0).serial.port i).period.toNat
        (elapsed op k) (sent op i k) (ticked s op i k) ∧
      ∀ cycles, op k = .update cycles →
        Shows i cycles (elapsed op k) (s k) ((op k).run (s k)).record ((op k).run (s k)).value.2 := by
  have hsender : ((s 0).serial.port i).Sender ((s 0).serial.port i).mode.bitsPerChar.toNat
      ((s 0).serial.port i).period.toNat :=
    ⟨Nat.pos_of_ne_zero fun h0 => moving (UInt32.toNat_inj.mp h0), enabled, rfl, rfl⟩
  have hstart : ((s 0).serial.port i).Transmission _ _ 0 [] [] :=
    ⟨hsender, .through ⟨consistent.idle_of_empty empty, nofun, rfl⟩, by simp [Received], nofun⟩
  have h := hs.transmission hstart admitted k
  refine ⟨h.result, fun cycles hop => ?_⟩
  rw [hop]
  exact shows_update (s k) cycles h.wellFormed _

end History

/-- Sets port 0 to eight bits of two cycles each, and enables its transmitter and its interrupt. -/
def setting : Nat → Operation
  | 0 => .write 0 8 0xd .half
  | 1 => .write 0 0xe 2 .half
  | _ => .write 0 0xa 0x401 .half

/-- Writes one character, and the next one while it goes out; then acknowledges the interrupt. -/
def sending : Nat → Operation
  | 0 => .write 0 0 0x55 .byte
  | 1 => .update 5
  | 2 => .write 0 0 0x0f .byte
  | 3 => .input 0 1 1
  | 4 => .update 20
  | 5 => .read 0 0 .byte
  | 6 => .write 0 0xa 0x411 .half
  | _ => .update 7

def settled : Bus Unit := operated Machine.bare.bus setting 3

set_option maxRecDepth 10000 in
theorem transmitted_sending :
    Operated (operated settled sending) sending ∧ (settled.serial.port 0).Consistent ∧
      (settled.serial.port 0).status.has Status.txEmpty ∧ (settled.serial.port 0).control.txEnable ∧
      (settled.serial.port 0).period ≠ 0 ∧
      (∀ k, (sending k).Admitted 0 ((operated settled sending k).serial.port 0)) ∧
      sent sending 0 5 = [(0, 0x55), (5, 0x0f)] ∧
      (ticked (operated settled sending) sending 0 5).map Tick.time =
        [2, 4, 6, 8, 10, 12, 14, 16, 18, 20, 22, 24] ∧
      Transmitted 8 2 25 (sent sending 0 5) (ticked (operated settled sending) sending 0 5) := by
  have hs := operated_operated settled sending
  have hconsistent : (settled.serial.port 0).Consistent :=
    .of_sound ((operated_operated Machine.bare.bus setting).sound atPowerOn_bare 3 0)
  have hadmitted : ∀ k, (sending k).Admitted 0 ((operated settled sending k).serial.port 0) := by
    intro k
    match k with
    | 0 => exact fun _ => by rw [if_pos rfl]; decide +kernel
    | 2 => exact fun _ => by rw [if_pos rfl]; decide +kernel
    | 6 =>
      intro _
      rw [if_neg (by decide)]
      exact ⟨by decide +kernel, by decide +kernel, by decide +kernel⟩
    | 1 | 3 | 4 | 5 => trivial
    | _ + 7 => trivial
  have hbits : (settled.serial.port 0).mode.bitsPerChar.toNat = 8 := by decide +kernel
  have hperiod : (settled.serial.port 0).period.toNat = 2 := by decide +kernel
  have h := (hs.transmitted hconsistent (by decide +kernel) (by decide +kernel) (by decide +kernel)
    hadmitted 5).1
  rw [show operated settled sending 0 = settled from rfl, hbits, hperiod] at h
  exact ⟨hs, hconsistent, by decide +kernel, by decide +kernel, by decide +kernel, hadmitted,
    by decide +kernel, by decide +kernel, h⟩

end R3000.Serial
