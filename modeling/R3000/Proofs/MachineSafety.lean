import R3000.Machine.Host
import R3000.Proofs.BusSafety
import R3000.Proofs.Closure

/-! # A machine in good order

Loads in flight are on their way to one of registers 1 to 31, and the bus is in good order. Whatever
instructions do keeps this, and the only fault that they can leave is that a counter overruns. -/
namespace R3000

def LoadDelay.WellFormed (l : LoadDelay) : Prop :=
  ∀ reg value, l = .pending reg value → 0 < reg.toNat ∧ reg.toNat < 32

structure DelaySlots.WellFormed (s : DelaySlots) : Prop where
  load : s.load.WellFormed
  nextLoad : s.nextLoad.WellFormed

namespace DelaySlots
variable {s : DelaySlots}

theorem wellFormed_none : LoadDelay.none.WellFormed := nofun

theorem wellFormed_cancel (h : s.WellFormed) (reg : UInt64) : (s.cancel reg).WellFormed := by
  simp only [cancel]
  split
  · exact ⟨wellFormed_none, h.nextLoad⟩
  · exact h

theorem wellFormed_schedule (h : s.WellFormed) (r : Reg) (value : UInt32) :
    (s.schedule (Machine.loadReg r) value).WellFormed := by
  simp only [schedule]
  split
  · exact h
  · rename_i h0
    refine ⟨(wellFormed_cancel h _).load, ?_⟩
    rintro reg v ⟨⟩
    have hr : (Machine.loadReg r).toNat = r.val :=
      Nat.mod_eq_of_lt (Nat.lt_trans r.isLt (by decide))
    exact ⟨Nat.pos_of_ne_zero fun h => h0 (UInt64.toNat_inj.mp h), hr ▸ r.isLt⟩

theorem wellFormed_advance (h : s.WellFormed) : s.advance.WellFormed :=
  ⟨h.nextLoad, wellFormed_none⟩

theorem land_quiet {l : LoadDelay} (h : l.WellFormed) (f : RegisterFile) : (land l f).Quiet := by
  cases l with
  | none => exact .pure f
  | pending reg value =>
    refine .note_bind ?_
    rw [dif_pos (h reg value rfl).2]
    exact .pure _

theorem retire_quiet (h : s.WellFormed) (f : RegisterFile) : (s.retire f).Quiet :=
  .bind (land_quiet h.load f) (.pure _)

end DelaySlots

namespace Machine
variable {γ δ : Type} {m : Machine γ δ}

structure WellFormed (m : Machine γ δ) : Prop where
  slots : m.cpu.slots.WellFormed
  bus : m.bus.WellFormed

/-- A motion that allows any change of the processor but of its clock, as long as its loads in
flight stay in good order, and any change of the bus that keeps it in good order without a fault. -/
structure Lenient (M : Motion (Machine γ δ)) : Prop where
  cpu : ∀ m c, c.clock = m.cpu.clock → (m.cpu.slots.WellFormed → c.slots.WellFormed) →
    M.holds m {} { m with cpu := c }
  bus : ∀ m r b, (Bus.safe δ).holds m.bus r b → M.holds m r { m with bus := b }
  gte : ∀ m s, M.holds m {} { m with gteState := s }
  await : ∀ m, Moves M awaitGte m

namespace Lenient
variable {M : Motion (Machine γ δ)} (h : Lenient M)
include h

theorem modifyCpu (f : Cpu → Cpu) (hc : (f m.cpu).clock = m.cpu.clock)
    (hs : m.cpu.slots.WellFormed → (f m.cpu).slots.WellFormed) :
    Moves M (Machine.modifyCpu f) m :=
  h.cpu m (f m.cpu) hc hs

theorem onBus {α : Type} {x : Bus.Op δ α} (hx : Moves (Bus.safe δ) x m.bus) :
    Moves M (Machine.onBus x) m :=
  .onBus hx (h.bus m)

theorem resolveMulDiv : Moves M (Machine.resolveMulDiv (γ := γ) (δ := δ)) m := by
  refine .exec_get_bind (.exec_lift_bind (M.quiet (.resolveMulDiv _ _ _) m) ?_)
  exact .exec_bind (.plain (h.modifyCpu _ rfl id)) fun _ _ _ => .pure _

theorem closed : Closed fun _ x => ∀ m : Machine γ δ, Moves M x m where
  ret _ _ := .pure _
  seq hx hf m := .exec_bind (hx m) fun a t h => hf a ⟨m, t, h⟩ t
  fail _ m := M.still m []
  look _ hf m := .exec_get_bind (hf m m)
  report hx m := .exec_lift (M.quiet hx m)
  writeGpr _ _ _ := .plain (h.modifyCpu _ rfl id)
  writeHi _ _ := .plain (h.modifyCpu _ rfl id)
  writeLo _ _ := .plain (h.modifyCpu _ rfl id)
  writeCop0 _ _ := .plain (h.modifyCpu _ rfl id)
  cancel _ _ := .plain (h.modifyCpu _ rfl fun hs => DelaySlots.wellFormed_cancel hs _)
  schedule _ _ _ := .plain (h.modifyCpu _ rfl fun hs => DelaySlots.wellFormed_schedule hs _ _)
  setBranch _ _ _ := .plain (h.modifyCpu _ rfl fun hs => ⟨hs.load, hs.nextLoad⟩)
  writeCaches _ _ := .plain (h.modifyCpu _ rfl id)
  issue _ _ _ _ := .plain (h.modifyCpu _ rfl id)
  resolve _ := h.resolveMulDiv
  await _ := .plain (h.await _)
  writeGte _ _ _ := h.gte _ _
  busRead _ _ ha _ := .plain (h.onBus (Bus.read_safe ha))
  busWrite _ _ _ ha _ := .plain (h.onBus (Bus.write_safe ha _))
  fetchLine _ _ _ := .plain (h.onBus (Bus.fetchLine_safe _ _))

theorem sampleLine : Moves M Machine.sampleLine m := h.cpu m _ rfl id

theorem advance : Moves M Machine.advance m :=
  .get_bind (.bind (h.modifyCpu _ rfl fun hs => ⟨hs.load, hs.nextLoad⟩) fun _ _ _ => .pure _)

/-- Only a load in good order lands without a fault. -/
theorem retire (hs : m.cpu.slots.WellFormed) : Moves M Machine.retire m :=
  .get_bind (.quiet_bind (DelaySlots.retire_quiet hs _)
    (h.modifyCpu _ rfl DelaySlots.wellFormed_advance))

theorem enterException (e : Exception) (pc : UInt32) :
    Moves M (Machine.enterException e pc) m :=
  .get_bind (.quiet_bind (.note _) (h.modifyCpu _ rfl fun hs => ⟨hs.load, hs.nextLoad⟩))

end Lenient

/-- Computations that keep a machine in good order and leave no fault but that of a counter. -/
def safe (γ δ : Type) : Motion (Machine γ δ) := .invariant WellFormed (· = .counter)

theorem setClock_safe (clock : Clock) : Moves (safe γ δ) (setClock clock) m :=
  fun hm => ⟨⟨hm.slots, hm.bus⟩, nofun⟩

theorem count_faults (n amount : UInt64) :
    ∀ f ∈ (count n amount).record.faults, f = .counter := by
  simp only [count, require]
  split <;> intro f hf
  · cases hf
  · exact List.mem_singleton.mp hf

theorem count_safe (n amount : UInt64) : (safe γ δ).holds m (count n amount).record m :=
  fun hm => ⟨hm, count_faults n amount⟩

theorem spend_safe (cycles : UInt64) : Moves (safe γ δ) (spend cycles) m :=
  .get_bind (.lift_bind (count_safe _ _) (setClock_safe _))

theorem awaitGte_safe : Moves (safe γ δ) awaitGte m := by
  refine .get_bind ?_
  dsimp only
  split
  · exact .quiet_bind (.note _) (setClock_safe _)
  · exact .pure _

theorem lenient_safe : Lenient (safe γ δ) where
  cpu _ _ _ hs hm := ⟨⟨hs hm.slots, hm.bus⟩, nofun⟩
  bus _ _ _ hb hm := ⟨⟨hm.slots, (hb hm.bus).1⟩, fun f hf => ((hb hm.bus).2 f hf).elim⟩
  gte _ _ hm := ⟨⟨hm.slots, hm.bus⟩, nofun⟩
  await _ := awaitGte_safe

theorem commandGte_safe (f : Register) : Moves (safe γ δ) (commandGte (γ := γ) (δ := δ) f) m := by
  have hrest : ∀ (s : γ) (latency : UInt32) (m : Machine γ δ), Moves (safe γ δ)
      (do
        modify fun m => { m with gteState := s }
        let clock := (← get).cpu.clock
        let gteReadyAt ← count clock.cycles latency.toUInt64
        plain (setClock { clock with gteReadyAt }) : Exec γ δ Unit) m := fun s latency m =>
    .exec_bind (lenient_safe.gte m s) fun _ _ _ => .exec_get_bind
      (.exec_lift_bind (count_safe _ _) (.plain (setClock_safe _)))
  refine .exec_bind (.plain awaitGte_safe) fun _ t _ => .exec_lift_bind (fun hm => ⟨hm, nofun⟩)
    (.exec_get_bind ?_)
  dsimp only
  split
  · exact .exec_lift_bind ((safe γ δ).still t _) (hrest _ _ t)
  · exact hrest _ _ t

theorem executeWord_safe (word pc : UInt32) :
    Moves (safe γ δ) (executeWord (γ := γ) (δ := δ) word pc) m :=
  lenient_safe.closed.executeWord word pc (fun _ _ _ cycles _ => .plain (spend_safe cycles))
    (fun f _ _ _ => commandGte_safe f) m

theorem obtain_safe (pc : UInt32) : Moves (safe γ δ) (obtain (γ := γ) (δ := δ) pc) m :=
  lenient_safe.closed.obtain pc (fun _ => .plain (spend_safe _)) (fun _ => .plain (spend_safe _)) m

theorem retire_safe : Moves (safe γ δ) retire m := fun hm => lenient_safe.retire hm.slots hm

theorem abort_safe (e : Exception) (pc : UInt32) : Moves (safe γ δ) (abort e pc) m :=
  .bind retire_safe fun _ _ _ => lenient_safe.enterException e pc

theorem complete_safe (word pc : UInt32) : Moves (safe γ δ) (complete word pc) m := by
  refine .bind (executeWord_safe word pc) fun outcome _ _ => .bind retire_safe fun _ _ _ =>
    .get_bind (.lift_bind (count_safe _ _) (.bind (setClock_safe _) fun _ _ _ => ?_))
  cases outcome with
  | ok _ => exact .pure _
  | error e => exact lenient_safe.enterException e pc

theorem step_safe : Moves (safe γ δ) step m := by
  refine .bind lenient_safe.sampleLine fun _ _ _ => .bind lenient_safe.advance fun pc _ _ =>
    .bind (spend_safe _) fun _ _ _ => .get_bind ?_
  dsimp only
  split
  · exact .quiet_bind (.note _) (abort_safe _ pc)
  · refine .bind (obtain_safe pc) fun r _ _ => ?_
    cases r with
    | error e => exact abort_safe e pc
    | ok word => exact complete_safe word pc

theorem next_safe : Moves (safe γ δ) next m :=
  .get_bind (.bind step_safe fun _ _ _ => .get_bind
    (.bind (lenient_safe.onBus (Bus.update_safe _)) fun _ _ _ => .pure _))

end Machine
end R3000
