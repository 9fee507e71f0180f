import Mathlib.Data.List.Chain
import R3000.Proofs.SerialConsistency

/-! # What a listener knows of the lines

The outputs of a port change only as it drives them, one change at a time, and its listener is told
each: so from power-on on the listener knows them. A reset of the machine puts them low without a word,
and what the listener knows from then on counts from there. -/
namespace R3000.Serial

/-- Each level that is driven is a change, and they lead from one level to another. -/
def Leads : Lines → List Lines → Lines → Prop
  | l, [], k => l = k
  | l, d :: driven, k => d ≠ l ∧ Leads d driven k

namespace Leads
variable {l k m : Lines} {a b : List Lines}

theorem append (ha : Leads l a k) (hb : Leads k b m) : Leads l (a ++ b) m := by
  induction a generalizing l with
  | nil =>
    cases ha
    exact hb
  | cons d a ih => exact ⟨ha.1, ih ha.2⟩

/-- Who has been told every change knows the last level. -/
theorem getLast? (h : Leads l a k) : k = a.getLast?.getD l := by
  induction a generalizing l with
  | nil => exact h.symm
  | cons d a ih =>
    rw [List.getLast?_cons, Option.getD_some]
    exact ih h.2

theorem isChain (h : Leads l a k) : a.IsChain (· ≠ ·) := by
  induction a generalizing l with
  | nil => exact .nil
  | cons d a ih =>
    cases a with
    | nil => exact .singleton d
    | cons e a => exact .cons_cons h.2.1.symm (ih h.2)

end Leads

/-- A reaction drives every change of the outputs of a port. -/
def Reaction.Drives (p : Port) (r : Reaction) : Prop := Leads p.outputs r.driven r.port.outputs

namespace Port
variable {p q : Port}

theorem drives_drive (p : Port) (lines : Lines) : (p.drive lines).Drives p := by
  simp only [drive]
  split
  · rfl
  · exact ⟨‹_›, rfl⟩

theorem outputs_kick (p : Port) : p.kick.value.outputs = p.outputs := by
  rw [value_kick]
  split <;> rfl

theorem outputs_transmit (p : Port) (value : UInt8) : (p.transmit value).value.outputs = p.outputs := by
  rw [value_transmit, outputs_kick]

theorem drives_writeControl (p : Port) (value : UInt16) : (p.writeControl value).value.Drives p := by
  simp only [writeControl]
  split
  · simp only [Reported.value_bind, Reported.value_pure]
    exact drives_drive { inputs := p.inputs, outputs := p.outputs : Port }.syncInputs {}
  generalize hq : (if (⟨value⟩ : Control).iack then p.acknowledge else p) = q
  have hout : q.outputs = p.outputs := by
    subst hq
    split <;> rfl
  generalize hr : Port.drive _ _ = r
  have hd : r.Drives p := by
    subst hr
    have h := drives_drive { q with control := (⟨value⟩ : Control).clearIack }
      ((q.outputs.set Lines.dtr (⟨value⟩ : Control).dtr).set Lines.rts (⟨value⟩ : Control).rts)
    simp only [Reaction.Drives] at h ⊢
    rw [← hout]
    exact h
  split
  · simp only [Reaction.Drives]
    show Leads _ r.driven r.port.kick.value.outputs
    rw [outputs_kick]
    exact hd
  split
  · exact hd
  · exact hd

theorem drives_input (p : Port) (mask levels : UInt32) : (p.input mask levels).Drives p := by
  simp only [input]
  split <;> rfl

theorem outputs_loadChar (h : p.loadChar = some q) : q.outputs = p.outputs := by
  simp only [loadChar] at h
  split at h
  · cases h
    rfl
  split at h
  · cases h
    rfl
  · cases h

theorem drives_shiftBit (p : Port) : p.shiftBit.Drives p := by
  exact drives_drive { p with txShift := p.txShift >>> 1, txBits := p.txBits - 1 } p.bitLines

theorem drives_tick (p : Port) : p.tick.value.1.Drives p := by
  simp only [tick]
  split
  · exact rfl
  rename_i q hq
  have hd := q.drives_shiftBit
  simp only [Reaction.Drives] at hd ⊢
  rw [outputs_loadChar hq] at hd
  simp only [Reported.value_bind]
  split
  · exact hd
  · split <;> exact hd

theorem drives_ticks (n : Nat) (p : Port) : (ticks n p).value.Drives p := by
  induction n generalizing p with
  | zero => exact rfl
  | succ n ih =>
    rw [ticks_succ]
    split
    · exact (drives_tick p).append (ih _)
    · exact drives_tick p

theorem drives_update (p : Port) (cycles : UInt32) : (p.update cycles).value.Drives p :=
  drives_ticks _ (p.clocked (p.timer.advance cycles))

theorem drives_writePort (p : Port) (offset value : UInt32) (w : Width) :
    (Controller.writePort p offset value w).value.Drives p := by
  unfold Controller.writePort
  extract_lets index word mask low high
  split
  · exact (outputs_transmit p _).symm
  split
  · have hm : (if low then p.writeMode word.toUInt16 else p).outputs = p.outputs := by
      split <;> rfl
    split
    · have h := drives_writeControl (if low then p.writeMode word.toUInt16 else p)
        (word >>> 16).toUInt16
      simp only [Reaction.Drives] at h ⊢
      rw [hm] at h
      exact h
    · exact hm.symm
  split
  · have hm : (if low then { p with misc := word.toUInt16 } else p).outputs = p.outputs := by
      split <;> rfl
    simp only [Reaction.Drives, Reported.value_pure, Leads]
    split <;> exact hm.symm
  · exact rfl

end Port

/-- Every operation but a reset of the machine drives what it changes. -/
theorem Operation.drives {op : Operation} (h : op ≠ .reset) (i : Fin 2) (p : Port) :
    (op.reaction i p).Drives p := by
  cases op with
  | read port offset w =>
    simp only [reaction]
    split
    · simp only [Reaction.Drives, Leads]
      split <;> rfl
    · exact rfl
  | write port offset value w =>
    simp only [reaction]
    split
    · exact p.drives_writePort offset value w
    · exact rfl
  | input port mask levels =>
    simp only [reaction]
    split
    · exact p.drives_input mask levels
    · exact rfl
  | update cycles => exact p.drives_update cycles
  | reset => exact absurd rfl h

variable {δ : Type} {s : Nat → Bus δ} {op : Nat → Operation} {i : Fin 2}

def told (s : Nat → Bus δ) (op : Nat → Operation) (i : Fin 2) (j : Nat) : Nat → List Lines
  | 0 => []
  | n + 1 => told s op i j n ++ ((op (j + n)).run (s (j + n))).record.linesTo i

/-- The listener of a port knows its outputs after `n` operations from operation `j` on, by what it was
last told in them, and every time it was told something new. -/
structure Informed (s : Nat → Bus δ) (op : Nat → Operation) (i : Fin 2) (j n : Nat) : Prop where
  known : ((s (j + n)).serial.port i).outputs = (told s op i j n).getLast?.getD {}
  changes : (told s op i j n).IsChain (· ≠ ·)

theorem Operated.leads (hs : Operated s op) (listened : ((s 0).serial.listeners.get i).isSome)
    {j n : Nat} (h : ∀ m < n, op (j + m) ≠ .reset) :
    Leads ((s j).serial.port i).outputs (told s op i j n) ((s (j + n)).serial.port i).outputs := by
  induction n with
  | zero => exact rfl
  | succ n ih =>
    have hd := Operation.drives (h n (Nat.lt_succ_self n)) i ((s (j + n)).serial.port i)
    have hl := (Bus.run_reacted (op (j + n)) (s (j + n))).lines i
    rw [Controller.heard, hs.listeners, if_pos listened] at hl
    simp only [Reaction.Drives] at hd
    rw [← hl, ← hs.port] at hd
    exact (ih fun m hm => h m (Nat.lt_succ_of_lt hm)).append hd

/-- Where the outputs were put low without a word: at power-on, and by a reset just before. -/
def Silenced (op : Nat → Operation) : Nat → Prop
  | 0 => True
  | k + 1 => op k = .reset

structure Informing (s : Nat → Bus δ) (op : Nat → Operation) (i : Fin 2) : Prop where
  /-- From power-on on, and from each reset on to the next, it knows the outputs. -/
  between : ∀ j n, Silenced op j → (∀ m < n, op (j + m) ≠ .reset) → Informed s op i j n
  /-- A reset puts them low, and the listener is not told. -/
  reset : ∀ k, op k = .reset →
    told s op i k 1 = [] ∧ ((s (k + 1)).serial.port i).outputs = {}

/-- From power-on on, and again from each reset of the machine on, the listener of a port knows its
outputs; of what a reset changes it is not told. -/
theorem Operated.informing (hs : Operated s op) (h : (s 0).serial.AtPowerOn)
    (listened : ((s 0).serial.listeners.get i).isSome) : Informing s op i := by
  have hreset : ∀ k, op k = .reset → ((s (k + 1)).serial.port i).outputs = {} := fun k hk => by
    rw [hs.port, hk]
    rfl
  have hlow : ∀ j, Silenced op j → ((s j).serial.port i).outputs = {} := by
    intro j hj
    cases j with
    | zero => rw [h i]
    | succ k => exact hreset k hj
  refine ⟨fun j n hj hn => ?_, fun k hk => ⟨?_, hreset k hk⟩⟩
  · have hleads := hs.leads listened hn
    rw [hlow j hj] at hleads
    exact ⟨hleads.getLast?, hleads.isChain⟩
  · have hl := (Bus.run_reacted (op k) (s k)).lines i
    rw [hk] at hl
    show [] ++ ((op (k + 0)).run (s (k + 0))).record.linesTo i = []
    rw [Nat.add_zero, hk, hl]
    exact Controller.heard_nil _ i

/-- A machine as it is switched on, with a listener at port 0. -/
def listening : Bus Unit :=
  { Machine.bare.bus with serial := (Machine.bare.bus.serial.listen 0 fun _ o => o).value }

theorem atPowerOn_listening : listening.serial.AtPowerOn := fun i => Vector.getElem_replicate i.isLt

/-- Raises DTR, resets the machine, and raises RTS. -/
def resetting : Nat → Operation
  | 0 => .write 0 0xa 2 .half
  | 1 => .reset
  | _ => .write 0 0xa 0x20 .half

set_option maxRecDepth 10000 in
theorem informing_resetting :
    Operated (operated listening resetting) resetting ∧
      listening.serial.AtPowerOn ∧ (listening.serial.listeners.get 0).isSome ∧
      Informing (operated listening resetting) resetting 0 ∧
      told (operated listening resetting) resetting 0 0 1 = [⟨2⟩] ∧
      told (operated listening resetting) resetting 0 2 1 = [⟨4⟩] := by
  have hs := operated_operated listening resetting
  exact ⟨hs, atPowerOn_listening, by decide +kernel,
    hs.informing atPowerOn_listening (by decide +kernel), by decide +kernel, by decide +kernel⟩

set_option maxRecDepth 10000 in
/-- After a reset a listener that was told of DTR still takes it to be raised. -/
theorem misinformed_resetting : ¬∀ (s : Nat → Bus Unit) (op : Nat → Operation) (i : Fin 2),
    Operated s op → (s 0).serial.AtPowerOn → ((s 0).serial.listeners.get i).isSome →
    ∀ k, Informed s op i 0 k := by
  intro h
  have hk := (h (operated listening resetting) resetting 0 (operated_operated _ _)
    atPowerOn_listening (by decide +kernel) 2).known
  revert hk
  decide +kernel

end R3000.Serial
