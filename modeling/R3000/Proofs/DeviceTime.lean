import R3000.Proofs.DmaTime
import R3000.Proofs.Reachability
import R3000.Proofs.SerialTime

/-! # The time of devices, in one slice or in many

What the DMA controller, the serial ports and the interrupt controller are after some cycles, and what
the listener of each port has been told by then, depends on how many cycles went by and not on how they
were handed out. -/
namespace R3000

/-- The levels that the listener of a port has been told of, in order. -/
def Record.linesTo (port : Fin 2) (r : Record) : List Serial.Lines :=
  r.acts.filterMap fun
    | .lines i l => if i = port then some l else none
    | _ => none

theorem Record.linesTo_append (port : Fin 2) (r s : Record) :
    (r ++ s).linesTo port = r.linesTo port ++ s.linesTo port :=
  List.filterMap_append

theorem Record.linesTo_of_acts {r : Record} (h : r.acts = []) (port : Fin 2) : r.linesTo port = [] := by
  simp only [linesTo]
  rw [h]
  rfl

namespace Serial.Port

theorem acts_tick (p : Port) : p.tick.record.acts = [] := by
  unfold tick
  split
  · rfl
  · simp only [Reported.record_bind, Record.acts_append, acts_require, List.nil_append]
    split
    · rfl
    · split <;> rfl

theorem acts_ticks (n : Nat) (p : Port) : (ticks n p).record.acts = [] := by
  induction n generalizing p with
  | zero => rfl
  | succ n ih =>
    simp only [ticks, Reported.record_bind, Record.acts_append, acts_tick, List.nil_append]
    split
    · simp [ih]
    · rfl

/-- A port tells nobody of what time makes of it; that is left to its controller. -/
theorem acts_update (p : Port) (cycles : UInt32) : (p.update cycles).record.acts = [] := by
  simp [update, acts_require, acts_ticks]

end Serial.Port

namespace Serial.Controller
variable {δ : Type} {c : Controller δ}

def reaction (c : Controller δ) (cycles : UInt32) (i : Fin 2) : Reaction :=
  ((c.port i).update cycles).value

def heard (c : Controller δ) (i : Fin 2) (driven : List Lines) : List Lines :=
  if (c.listeners.get i).isSome then driven else []

theorem linesTo_tell (i j : Fin 2) (driven : List Lines) (outside : δ) :
    (c.tell i driven outside).record.linesTo j = if i = j then c.heard i driven else [] := by
  simp only [tell, heard]
  rw [show c.listeners.get i = c.listeners[i] from rfl]
  cases c.listeners[i] with
  | none => exact (ite_self _).symm
  | some l =>
    dsimp only [Option.isSome_some]
    rw [if_pos rfl]
    induction driven generalizing outside with
    | nil => exact (ite_self _).symm
    | cons lines driven ih =>
      rw [List.foldlM_cons, Reported.record_bind, Record.linesTo_append, ih]
      show (if i = j then some lines else none).toList ++ _ = _
      split <;> rfl

theorem reaction_setPort {i j : Fin 2} (h : i ≠ j) (p : Port) (cycles : UInt32) :
    (c.setPort i p).reaction cycles j = c.reaction cycles j := by
  simp only [reaction]
  rw [port_setPort_of_ne c h]

theorem linesTo_settle (i j : Fin 2) (r : Reaction) (int : Interrupt.Controller) (outside : δ) :
    (c.settle i r int outside).record.linesTo j = if i = j then c.heard i r.driven else [] := by
  simp only [settle]
  rw [Reported.record_bind, Reported.record_bind, Record.linesTo_append, Record.linesTo_append,
    linesTo_tell, Record.linesTo_of_acts (Interrupt.Controller.quiet_raiseTimes _ _ _).acts]
  exact List.append_nil _

/-- A reaction that is worked out without an act, and then carried out. -/
theorem linesTo_bind_settle {x : Reported Reaction} (hx : x.record.acts = []) (i j : Fin 2)
    (int : Interrupt.Controller) (outside : δ) :
    (x >>= fun r => c.settle i r int outside).record.linesTo j =
      if i = j then c.heard i x.value.driven else [] := by
  rw [Reported.record_bind, Record.linesTo_append, Record.linesTo_of_acts hx, linesTo_settle]
  rfl

theorem linesTo_updatePort (c : Controller δ) (i j : Fin 2) (cycles : UInt32)
    (int : Interrupt.Controller) (outside : δ) :
    (c.updatePort i cycles int outside).record.linesTo j =
      if i = j then c.heard i (c.reaction cycles i).driven else [] :=
  linesTo_bind_settle (Port.acts_update _ cycles) i j int outside

/-- What is left when these cycles have passed on both ports. -/
theorem value_update (c : Controller δ) (cycles : UInt32) (int : Interrupt.Controller) (outside : δ) :
    ∃ o, (c.update cycles int outside).value =
      ((c.setPort 0 (c.reaction cycles 0).port).setPort 1 (c.reaction cycles 1).port,
        (int.raised (source 0) (c.reaction cycles 0).raises).raised (source 1)
          (c.reaction cycles 1).raises, o) := by
  have h : ∀ c' int' o', ∃ o, (updatePort c' 1 cycles int' o').value =
      (setPort c' 1 (reaction c' cycles 1).port,
        int'.raised (source 1) (reaction c' cycles 1).raises, (o : δ)) := fun _ _ _ => ⟨_, rfl⟩
  obtain ⟨o, ho⟩ := h (c.setPort 0 (c.reaction cycles 0).port)
    (int.raised (source 0) (c.reaction cycles 0).raises)
    (c.tell 0 (c.reaction cycles 0).driven outside).value
  rw [reaction_setPort (by decide)] at ho
  exact ⟨o, ho⟩

theorem linesTo_update (c : Controller δ) (cycles : UInt32) (int : Interrupt.Controller)
    (outside : δ) (i : Fin 2) :
    (c.update cycles int outside).record.linesTo i = c.heard i (c.reaction cycles i).driven := by
  have hfirst := c.linesTo_updatePort 0 i cycles int outside
  have hsecond := (c.setPort 0 (c.reaction cycles 0).port).linesTo_updatePort 1 i cycles
    (int.raised (source 0) (c.reaction cycles 0).raises)
    (c.tell 0 (c.reaction cycles 0).driven outside).value
  rw [reaction_setPort (by decide)] at hsecond
  simp only [update]
  rw [Reported.record_bind, Record.linesTo_append, hfirst]
  refine (congrArg _ hsecond).trans ?_
  match i with
  | 0 => exact List.append_nil _
  | 1 => rfl

end Serial.Controller

namespace Bus
variable {δ : Type} {b t u : Bus δ} {r q : Record} {a c : UInt32}

/-- The state of the devices after some cycles, and what was told meanwhile to the listener of each
port. -/
structure Elapsed (cycles : UInt32) (b : Bus δ) (r : Record) (t : Bus δ) : Prop where
  dma : t.dma = b.dma.later cycles
  listeners : t.serial.listeners = b.serial.listeners
  ports : ∀ i, t.serial.port i = (b.serial.reaction cycles i).port
  int : t.int = ((b.int.raised Interrupt.Source.dma (b.dma.dicr.rises t.dma.dicr)).raised
    (Serial.source 0) (b.serial.reaction cycles 0).raises).raised
    (Serial.source 1) (b.serial.reaction cycles 1).raises
  lines : ∀ i, r.linesTo i = b.serial.heard i (b.serial.reaction cycles i).driven

theorem serialUpdate_eq (b : Bus δ) (cycles : UInt32) :
    (serialUpdate cycles b).record.acts = (b.serial.update cycles b.int b.outside).record.acts ∧
      (serialUpdate cycles b).value.2 =
        { b with
          serial := (b.serial.update cycles b.int b.outside).value.1
          int := (b.serial.update cycles b.int b.outside).value.2.1
          outside := (b.serial.update cycles b.int b.outside).value.2.2 } := by
  refine ⟨?_, rfl⟩
  show (((b.serial.update cycles b.int b.outside).record.acts ++ []) ++ [] : List Act) = _
  rw [List.append_nil, List.append_nil]

theorem serialUpdate_elapsed {cycles : UInt32} (ht : t = b.withDma (b.dma.later cycles))
    (hr : r.acts = (serialUpdate cycles t).record.acts)
    (hu : u = (serialUpdate cycles t).value.2) : Elapsed cycles b r u := by
  have hserial : t.serial = b.serial := by rw [ht]; rfl
  obtain ⟨hacts, hvalue⟩ := serialUpdate_eq t cycles
  obtain ⟨o, ho⟩ := t.serial.value_update cycles t.int t.outside
  have hlines : ∀ i, r.linesTo i = (t.serial.update cycles t.int t.outside).record.linesTo i := by
    intro i
    simp only [Record.linesTo]
    rw [hr, hacts]
  rw [hvalue, ho, hserial] at hu
  subst hu
  refine ⟨by rw [ht]; rfl, rfl, fun i => ?_, by rw [ht]; rfl, fun i => ?_⟩
  · match i with
    | 0 => rw [Serial.Controller.port_setPort_of_ne _ (by decide), Serial.Controller.port_setPort_self]
    | 1 => rw [Serial.Controller.port_setPort_self]
  · rw [hlines, Serial.Controller.linesTo_update, hserial]

/-- The computation lets these cycles pass on the devices. -/
def Passes (cycles : UInt32) (x : Bus.Op δ Unit) (b : Bus δ) : Prop :=
  Elapsed cycles b (x b).record (x b).value.2

theorem update_passes (h : b.WellFormed) {cycles : UInt32} (hc : cycles ≠ 0) :
    Passes cycles (update cycles) b := by
  obtain ⟨hacts, hvalue⟩ := (dmaUpdate_leads h.dicr cycles).then_eq (serialUpdate cycles)
  simp only [Passes, update]
  rw [if_pos hc]
  generalize (dmaUpdate cycles >>= fun _ => serialUpdate cycles : Bus.Op δ Unit) b = x at *
  exact serialUpdate_elapsed rfl hacts (congrArg (·.2) hvalue)

theorem Elapsed.trans (h : b.WellFormed) (fits : a.toNat + c.toNat < 0x100000000)
    (ha : Elapsed a b r t) (hc : Elapsed c t q u) : Elapsed (a + c) b (r ++ q) u := by
  have hreaction : ∀ i, b.serial.reaction (a + c) i =
      (b.serial.reaction a i).before (t.serial.reaction c i) := by
    intro i
    simp only [Serial.Controller.reaction]
    rw [Serial.Port.update_add (h.serial i) fits, ha.ports i]
    rfl
  have hdma : u.dma = b.dma.later (a + c) := by
    rw [hc.dma, ha.dma, Dma.Controller.later_later fits]
  refine ⟨hdma, hc.listeners.trans ha.listeners, fun i => ?_, ?_, fun i => ?_⟩
  · rw [hc.ports, hreaction]
    rfl
  · have hmono := Dma.Controller.settled_foldl (a := a) h.dicr channels
    have hrises := Dma.Dicr.rises_add (d := b.dma.dicr) (e := t.dma.dicr) (f := u.dma.dicr)
      (fun hm => ha.dma ▸ hmono.2 hm)
      (fun hm => hc.dma ▸ (Dma.Controller.settled_foldl (ha.dma ▸ hmono.1) channels).2 hm)
    rw [hc.int, ha.int, hreaction, hreaction, ← hrises]
    simp only [Serial.Reaction.before]
    rw [← Interrupt.Controller.raised_add, ← Interrupt.Controller.raised_add,
      ← Interrupt.Controller.raised_add,
      Interrupt.Controller.raised_comm (Serial.source 1) Interrupt.Source.dma,
      Interrupt.Controller.raised_comm (Serial.source 0) Interrupt.Source.dma,
      Interrupt.Controller.raised_comm (Serial.source 1) (Serial.source 0)]
  · rw [Record.linesTo_append, ha.lines, hc.lines, hreaction]
    simp only [Serial.Controller.heard]
    rw [ha.listeners]
    split
    · rfl
    · rfl

namespace Passes
variable {x y : Bus.Op δ Unit}

theorem then_pure (hx : Passes a x b) : Passes a (x >>= fun _ => pure ()) b := by
  have hrecord : ((x >>= fun _ => pure ()) b).record = (x b).record := Record.append_empty _
  simp only [Passes]
  rw [hrecord]
  exact hx

theorem bind (h : b.WellFormed) (fits : a.toNat + c.toNat < 0x100000000) (hx : Passes a x b)
    (hy : Passes c y (x b).value.2) : Passes (a + c) (x >>= fun _ => y) b :=
  Elapsed.trans h fits hx hy

/-- Time handed out cycle by cycle. -/
theorem cycles (h : b.WellFormed) (n : Nat) (hn : a.toNat = n + 1) :
    Passes a ((List.replicate (n + 1) 1).forM update) b := by
  induction n generalizing b a with
  | zero =>
    have ha : a = 1 := UInt32.toNat_inj.mp hn
    subst ha
    exact then_pure (update_passes h (by decide))
  | succ n ih =>
    have hle : (1 : UInt32) ≤ a := by
      rw [UInt32.le_iff_toNat_le, hn]
      exact Nat.succ_pos _
    have hrest : (a - 1).toNat = n + 1 := by
      rw [UInt32.toNat_sub_of_le _ _ hle, hn]
      rfl
    have hsum : 1 + (a - 1) = a := by rw [UInt32.add_comm, UInt32.sub_add_cancel]
    have fits : (1 : UInt32).toNat + (a - 1).toNat < 0x100000000 := by
      have := a.toNat_lt
      rw [hrest, show (1 : UInt32).toNat = 1 from rfl]
      omega
    rw [← hsum, List.replicate_succ, List.forM]
    exact bind h fits (update_passes h (by decide)) (ih (update_safe 1 h).1 hrest)

end Passes

/-- Two ways to hand out time from a bus leave the same devices, and tell the listener of each port
the same. -/
structure Alike (x y : Bus.Op δ Unit) (b : Bus δ) : Prop where
  dma : (x b).value.2.dma = (y b).value.2.dma
  serial : (x b).value.2.serial = (y b).value.2.serial
  int : (x b).value.2.int = (y b).value.2.int
  lines : ∀ port, (x b).record.linesTo port = (y b).record.linesTo port

theorem Passes.alike {x y : Bus.Op δ Unit} (hx : Passes a x b) (hy : Passes a y b) : Alike x y b := by
  refine ⟨hx.dma.trans hy.dma.symm, ?_, ?_, fun i => (hx.lines i).trans (hy.lines i).symm⟩
  · have hports : (x b).value.2.serial.ports = (y b).value.2.serial.ports :=
      Vector.ext fun i hi => (hx.ports ⟨i, hi⟩).trans (hy.ports ⟨i, hi⟩).symm
    have hlisteners := hx.listeners.trans hy.listeners.symm
    revert hports hlisteners
    generalize (x b).value.2.serial = c
    generalize (y b).value.2.serial = d
    obtain ⟨_, _⟩ := c
    obtain ⟨_, _⟩ := d
    rintro rfl rfl
    rfl
  · rw [hx.int, hy.int, hx.dma, hy.dma]

theorem Alike.refl (x : Bus.Op δ Unit) (b : Bus δ) : Alike x x b := ⟨rfl, rfl, rfl, fun _ => rfl⟩

/-- No time at all changes nothing. -/
theorem update_zero : (update 0 : Bus.Op δ Unit) = pure () := rfl

theorem slices_alike (h : b.WellFormed) (fits : a.toNat + c.toNat < 0x100000000) :
    Alike (do update a; update c) (update (a + c)) b := by
  by_cases ha : a = 0
  · rw [ha, update_zero, pure_bind, UInt32.zero_add]
    exact .refl _ _
  by_cases hc : c = 0
  · rw [hc, update_zero, UInt32.add_zero]
    exact (update_passes h ha).then_pure.alike (update_passes h ha)
  · have hsum : a + c ≠ 0 := by
      rw [ne_eq, ← UInt32.toNat_inj, UInt32.toNat_zero] at *
      rw [Word.toNat_add_of_fits fits]
      omega
    exact ((update_passes h ha).bind h fits (update_passes (update_safe a h).1 hc)).alike
      (update_passes h hsum)

theorem cycles_alike (h : b.WellFormed) (n : UInt32) :
    Alike ((List.replicate n.toNat 1).forM update) (update n) b := by
  cases hn : n.toNat with
  | zero =>
    have h0 : n = 0 := UInt32.toNat_inj.mp hn
    rw [h0, update_zero]
    exact .refl _ _
  | succ k =>
    have h0 : n ≠ 0 := by
      rintro rfl
      cases hn
    exact (Passes.cycles h k hn).alike (update_passes h h0)

end Bus

/-- The buses of machines that a host can bring about: between steps, at the moment in a step when its
cycles are handed to the devices, and whenever some of them have been. -/
inductive Bus.Reachable {δ : Type} : Bus δ → Prop
  | between {γ : Type} {m : Machine γ δ} : m.Reachable → Reachable m.bus
  | within {γ : Type} {m : Machine γ δ} : m.Reachable → Reachable (Machine.step m).value.2.bus
  | update {b : Bus δ} (cycles : UInt32) : Reachable b → Reachable (Bus.update cycles b).value.2

namespace Bus.Reachable
variable {δ : Type} {b : Bus δ}

theorem wellFormed (h : b.Reachable) : b.WellFormed := by
  induction h with
  | between hm => exact hm.wellFormed.bus
  | within hm => exact (Machine.step_safe hm.wellFormed).1.bus
  | update cycles _ ih => exact (update_safe cycles ih).1

/-- The devices are in the same state after two slices of time as after both in one, and after as many
single cycles as after all of them in one; and their listeners have been told the same. -/
theorem update_sliced (h : b.Reachable) :
    (∀ a c : UInt32, a.toNat + c.toNat < 0x100000000 →
      Alike (do Bus.update a; Bus.update c) (Bus.update (a + c)) b) ∧
    ∀ n : UInt32, Alike ((List.replicate n.toNat 1).forM Bus.update) (Bus.update n) b :=
  ⟨fun _ _ fits => slices_alike h.wellFormed fits, cycles_alike h.wellFormed⟩

set_option maxRecDepth 10000 in
/-- The channel completes in the first slice, and three bits are sent in the second. -/
theorem update_sliced_busy : Machine.busy.bus.Reachable ∧
    (Machine.busy.bus.dma.channel 2).countdown = some 49 ∧
    (Machine.busy.bus.serial.port 0).timer = ⟨80, some 60⟩ ∧
    (50 : UInt32).toNat + (200 : UInt32).toNat < 0x100000000 ∧
    Alike (do Bus.update 50; Bus.update 200) (Bus.update (50 + 200)) Machine.busy.bus ∧
    Alike ((List.replicate 250 1).forM Bus.update) (Bus.update 250) Machine.busy.bus ∧
    ((Bus.update 250 Machine.busy.bus).value.2.dma.channel 2).countdown = none ∧
    (Bus.update 250 Machine.busy.bus).value.2.int.pending = 8 ∧
    ((Bus.update 250 Machine.busy.bus).record.linesTo 0).length = 3 := by
  have h : Machine.busy.bus.Reachable := .between Machine.reachable_busy
  exact ⟨h, by decide +kernel, by decide +kernel, by decide, h.update_sliced.1 50 200 (by decide),
    h.update_sliced.2 250, by decide +kernel, by decide +kernel, by decide +kernel⟩

end Bus.Reachable
end R3000
