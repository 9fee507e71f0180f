import R3000.Proofs.DeviceAddresses
import R3000.Proofs.DeviceTime

/-! # Operations of the serial ports

Whatever is done to the serial controller, each port reacts for itself: to its registers, to its
inputs, to time and to a reset of the machine. What it drives goes to its listener, and what it asks
for is raised; a reset tells nobody. -/
namespace R3000

namespace Serial

inductive Operation
  | read (port : Nat) (offset : UInt32) (w : Width)
  | write (port : Nat) (offset value : UInt32) (w : Width)
  | input (port : Nat) (mask levels : UInt32)
  | update (cycles : UInt32)
  /-- The machine is reset. -/
  | reset
deriving DecidableEq

namespace Operation
variable {δ : Type}

def run : Operation → Bus.Op δ Unit
  | read port offset w => do let _ ← Bus.serialRead port offset w
  | write port offset value w => Bus.serialWrite port offset value w
  | input port mask levels => Bus.serialInput port mask levels
  | update cycles => Bus.serialUpdate cycles
  | reset => modify fun b => { b with serial := b.serial.reset }

def cycles : Operation → Nat
  | update cycles => cycles.toNat
  | _ => 0

def reaction (i : Fin 2) (p : Port) : Operation → Reaction
  | read port offset _ =>
    if port = i then ⟨if offset = 0 then p.receive else p, [], 0⟩ else ⟨p, [], 0⟩
  | write port offset value w =>
    if port = i then (Controller.writePort p offset value w).value else ⟨p, [], 0⟩
  | input port mask levels => if port = i then p.input mask levels else ⟨p, [], 0⟩
  | update cycles => (p.update cycles).value
  | reset => ⟨{}, [], 0⟩

end Operation

namespace Controller
variable {δ : Type} {c d : Controller δ} {r : Record} {int int' : Interrupt.Controller}

/-- Both ports have reacted: what they drove has been told, and what they asked for raised. -/
structure Reacts (reaction : Fin 2 → Reaction) (c : Controller δ) (int : Interrupt.Controller)
    (r : Record) (d : Controller δ) (int' : Interrupt.Controller) : Prop where
  ports : ∀ i, d.port i = (reaction i).port
  listeners : d.listeners = c.listeners
  lines : ∀ i, r.linesTo i = c.heard i (reaction i).driven
  int : int' = (int.raised (source 0) (reaction 0).raises).raised (source 1) (reaction 1).raises

theorem heard_nil (c : Controller δ) (i : Fin 2) : c.heard i [] = [] := ite_self _

/-- Nothing happens. -/
theorem Reacts.still (hr : r.acts = []) : Reacts (fun i => ⟨c.port i, [], 0⟩) c int r c int where
  ports _ := rfl
  listeners := rfl
  lines i := by rw [Record.linesTo_of_acts hr, heard_nil]
  int := rfl

/-- One port reacts. -/
theorem Reacts.one {i : Fin 2} {s : Reaction}
    (hlines : ∀ j, r.linesTo j = if i = j then c.heard i s.driven else []) :
    Reacts (fun j => if i = j then s else ⟨c.port j, [], 0⟩) c int r (c.setPort i s.port)
      (int.raised (source i) s.raises) where
  ports j := by
    by_cases h : i = j
    · subst h
      simp
    · simp [port_setPort_of_ne c h, h]
  listeners := rfl
  lines j := by
    rw [hlines]
    by_cases h : i = j
    · simp [h]
    · simp [h, heard_nil]
  int := by
    match i with
    | 0 => rfl
    | 1 => rfl

/-- What is meant for the port with a number is nothing to the other, and where there is no such port
it is nothing to both. -/
theorem Reacts.numbered {port : Nat} {s : Port → Reaction}
    (h : ∀ hp : port < 2, Reacts
      (fun j => if ⟨port, hp⟩ = j then s (c.port ⟨port, hp⟩) else ⟨c.port j, [], 0⟩) c int r d int')
    (hn : ¬port < 2 → r.acts = [] ∧ d = c ∧ int' = int) :
    Reacts (fun j => if port = j then s (c.port j) else ⟨c.port j, [], 0⟩) c int r d int' := by
  by_cases hp : port < 2
  · have hsame : (fun j : Fin 2 => if port = j then s (c.port j) else ⟨c.port j, [], 0⟩) =
        fun j => if ⟨port, hp⟩ = j then s (c.port ⟨port, hp⟩) else ⟨c.port j, [], 0⟩ := by
      funext j
      by_cases hj : (⟨port, hp⟩ : Fin 2) = j
      · subst hj
        simp
      · have hne : port ≠ j.val := fun he => hj (Fin.ext he)
        simp [hj, hne]
    rw [hsame]
    exact h hp
  · obtain ⟨hr, rfl, rfl⟩ := hn hp
    have hsame : (fun j : Fin 2 => if port = j then s (d.port j) else ⟨d.port j, [], 0⟩) =
        fun j => ⟨d.port j, [], 0⟩ := by
      funext j
      rw [if_neg (by omega)]
    rw [hsame]
    exact .still hr

theorem setPort_port (c : Controller δ) (i : Fin 2) : c.setPort i (c.port i) = c := by
  simp [setPort, port]

theorem value_read {port : Nat} (hp : port < 2) (offset : UInt32) (w : Width) :
    (c.read port offset w).value.2 =
      c.setPort ⟨port, hp⟩
        (if offset = 0 then (c.port ⟨port, hp⟩).receive else c.port ⟨port, hp⟩) := by
  simp only [read]
  rw [dif_pos hp]
  by_cases h : offset = 0
  · rw [if_pos h, if_pos h]
    rfl
  · rw [if_neg h, if_neg h, setPort_port]
    rfl

end Controller
end Serial

namespace Bus
variable {δ : Type} {b : Bus δ}
open Serial Serial.Controller

def Reacted (op : Operation) (b : Bus δ) : Prop :=
  Reacts (fun i => op.reaction i (b.serial.port i)) b.serial b.int (op.run b).record
    (op.run b).value.2.serial (op.run b).value.2.int

theorem acts_back (l : List Act) : (l ++ []) ++ [] = l := by simp

/-- The operation carries out a computation on the serial controller. -/
theorem Reacted.of_controller {op : Operation} {x : Reported (Controller δ × Interrupt.Controller × δ)}
    (h : Reacts (fun i => op.reaction i (b.serial.port i)) b.serial b.int x.record x.value.1
      x.value.2.1)
    (hacts : (op.run b).record.acts = x.record.acts)
    (hserial : (op.run b).value.2.serial = x.value.1) (hint : (op.run b).value.2.int = x.value.2.1) :
    Reacted op b := by
  have hlines : ∀ i, (op.run b).record.linesTo i = x.record.linesTo i := fun i => by
    simp only [Record.linesTo]
    rw [hacts]
  simp only [Reacted]
  rw [hserial, hint]
  exact ⟨h.ports, h.listeners, fun i => (hlines i).trans (h.lines i), h.int⟩

theorem read_reacted (port : Nat) (offset : UInt32) (w : Width) : Reacted (.read port offset w) b := by
  have hacts : (b.serial.read port offset w).record.acts = [] := acts_serialRead _ _ _ _
  refine Reacted.of_controller
    (x := b.serial.read port offset w >>= fun v => pure (v.2, b.int, b.outside))
    (Reacts.numbered (s := fun p => ⟨if offset = 0 then p.receive else p, [], 0⟩)
      (fun hp => ?_) fun hp => ?_) (acts_back _) rfl rfl
  · rw [Reported.value_bind, value_read hp]
    refine .one fun j => ?_
    rw [Record.linesTo_of_acts ((List.append_nil _).trans hacts), heard_nil, ite_self]
  · refine ⟨(List.append_nil _).trans hacts, ?_, rfl⟩
    rw [Reported.value_bind]
    simp only [Controller.read]
    rw [dif_neg hp]
    rfl

theorem write_reacted (port : Nat) (offset value : UInt32) (w : Width) :
    Reacted (.write port offset value w) b := by
  refine Reacted.of_controller (x := b.serial.write port offset value w b.int b.outside)
    (Reacts.numbered (s := fun p => (Controller.writePort p offset value w).value) (fun hp => ?_)
      fun hp => ?_) (acts_back _) rfl rfl
  · simp only [Controller.write]
    rw [dif_pos hp]
    exact .one fun j => linesTo_bind_settle (writePort_quiet _ _ _ _).acts _ j _ _
  · simp only [Controller.write]
    rw [dif_neg hp]
    exact ⟨rfl, rfl, rfl⟩

theorem input_reacted (port : Nat) (mask levels : UInt32) : Reacted (.input port mask levels) b := by
  refine Reacted.of_controller (x := b.serial.input port mask levels b.int b.outside)
    (Reacts.numbered (s := fun p => p.input mask levels) (fun hp => ?_) fun hp => ?_) (acts_back _)
    rfl rfl
  · simp only [Controller.input]
    rw [dif_pos hp]
    exact .one fun j => linesTo_settle _ j _ _ _
  · simp only [Controller.input]
    rw [dif_neg hp]
    exact ⟨rfl, rfl, rfl⟩

theorem update_reacted (cycles : UInt32) : Reacted (.update cycles) b := by
  refine Reacted.of_controller (x := b.serial.update cycles b.int b.outside) ?_ (acts_back _) rfl
    rfl
  obtain ⟨o, ho⟩ := b.serial.value_update cycles b.int b.outside
  rw [ho]
  refine ⟨fun i => ?_, rfl, b.serial.linesTo_update cycles b.int b.outside, rfl⟩
  match i with
  | 0 => rw [port_setPort_of_ne _ (by decide), port_setPort_self]; rfl
  | 1 => rw [port_setPort_self]; rfl

theorem reset_reacted : Reacted .reset b where
  ports i := Vector.getElem_replicate i.isLt
  listeners := rfl
  lines i := (heard_nil _ i).symm
  int := rfl

theorem run_reacted (op : Operation) (b : Bus δ) : Reacted op b :=
  match op with
  | .read port offset w => read_reacted port offset w
  | .write port offset value w => write_reacted port offset value w
  | .input port mask levels => input_reacted port mask levels
  | .update cycles => update_reacted cycles
  | .reset => reset_reacted

end Bus

namespace Serial
variable {δ : Type} {s : Nat → Bus δ} {op : Nat → Operation}

/-- Each operation makes the next serial controller out of the one before. Other parts of the machine
may do anything in between. -/
def Operated (s : Nat → Bus δ) (op : Nat → Operation) : Prop :=
  ∀ k, (s (k + 1)).serial = ((op k).run (s k)).value.2.serial

theorem Operated.port (hs : Operated s op) (k : Nat) (i : Fin 2) :
    (s (k + 1)).serial.port i = ((op k).reaction i ((s k).serial.port i)).port := by
  rw [hs k]
  exact (Bus.run_reacted (op k) (s k)).ports i

theorem Operated.listeners (hs : Operated s op) (k : Nat) :
    (s k).serial.listeners = (s 0).serial.listeners := by
  induction k with
  | zero => rfl
  | succ k ih =>
    rw [hs k]
    exact (Bus.run_reacted (op k) (s k)).listeners.trans ih

def operated (b : Bus δ) (op : Nat → Operation) : Nat → Bus δ
  | 0 => b
  | k + 1 => ((op k).run (operated b op k)).value.2

theorem operated_operated (b : Bus δ) (op : Nat → Operation) : Operated (operated b op) op :=
  fun _ => rfl

/-- Every port as it is when the machine is switched on. -/
def Controller.AtPowerOn (c : Controller δ) : Prop := ∀ i, c.port i = {}

theorem atPowerOn_bare : Machine.bare.bus.serial.AtPowerOn := fun i =>
  Vector.getElem_replicate i.isLt

end Serial
end R3000
