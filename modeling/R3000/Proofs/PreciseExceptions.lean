import R3000.Proofs.PreciseInstructions
import R3000.Proofs.Reachability

/-! # Precise exceptions

A step that ends in the entry of an exception lands the load on its way and leaves the rest of the
machine as it was. Only a fetch from the data register of a serial port changes more: like every read of
that register it takes the character that waits there, whatever instruction the character is. -/
namespace R3000.Machine
variable {γ δ α : Type} {m t u : Machine γ δ} {taken : Fin 2 → Prop}

theorem checkExecutionBreakpoint_kept (pc : UInt32) :
    Moves (kept taken) (checkExecutionBreakpoint (γ := γ) (δ := δ) pc) m := by
  apply Moves.exec_get_bind
  dsimp only
  split
  · apply Moves.exec_bind (modifyCop0_kept _)
    intro _ t _
    apply Moves.exec_lift_bind ((kept taken).still t _)
    split
    · exact throw_kept _
    · exact .pure _
  · exact .pure _

/-- The ports whose data register lies at a virtual address. -/
def portAt (vaddr : UInt32) : Fin 2 → Prop := fun i => translate vaddr = Serial.dataRegister i

theorem fetch_kept (pc : UInt32) :
    Moves (kept (portAt pc)) (fetch (γ := γ) (δ := δ) pc) m := by
  apply Moves.exec_get_bind
  apply check_kept
  intro hc
  have hpc := translate_aligned (aligned_of_fetchable hc)
  dsimp only
  split
  · apply Moves.exec_bind (.plain (kept_onBus (Bus.fetchLine_kept _ hpc)))
    intro r t _
    apply Moves.exec_bind (.plain (modifyCpu_kept ⟨rfl, rfl, rfl, rfl, rfl, rfl, rfl, rfl⟩))
    intro _ u _
    apply Moves.exec_bind (answer_kept .fetch pc r.1)
    intro fetched v _
    split
    · exact .exec_bind (.plain (spend_kept _)) fun _ _ _ => .pure _
    · exact .pure _
  · apply Moves.exec_bind (.plain (spend_kept _))
    intro _ t _
    apply Moves.exec_bind (.plain (kept_onBus (Bus.read_kept _ _)))
    intro r u _
    exact answer_kept _ _ _

theorem obtain_kept (pc : UInt32) :
    Moves (kept (portAt pc)) (obtain (γ := γ) (δ := δ) pc) m :=
  .exec_bind (checkExecutionBreakpoint_kept pc) fun _ _ _ => fetch_kept pc

/-- What a step does up to where it retires the instruction at `pc`. -/
structure Attempt where
  pc : UInt32
  /-- An instruction was executed, and counts as retired. -/
  executed : Bool
  exception : Option Exception

def attempt : Run γ δ Attempt := do
  sampleLine
  let pc ← advance
  spend instructionCost
  let cop0 := (← get).cpu.regs.cop0
  if cop0.interrupted then
    note (.interrupt pc cop0.cause.ip)
    return ⟨pc, false, some .interrupt⟩
  else
    match ← (obtain pc).run with
    | .error e => return ⟨pc, false, some e⟩
    | .ok word =>
      match ← (executeWord word pc).run with
      | .ok _ => return ⟨pc, true, none⟩
      | .error e => return ⟨pc, true, some e⟩

def conclude (a : Attempt) : Run γ δ Unit := do
  retire
  if a.executed then
    let clock := (← get).cpu.clock
    setClock { clock with retired := ← count clock.retired 1 }
  match a.exception with
  | none => return ()
  | some e => enterException e a.pc

theorem conclude_refused (e : Exception) (pc : UInt32) :
    (conclude ⟨pc, false, some e⟩ : Run γ δ Unit) = abort e pc := rfl

theorem conclude_executed (outcome : Except Exception Unit) (pc : UInt32) :
    ((match outcome with
      | .ok _ => pure ⟨pc, true, none⟩
      | .error e => pure ⟨pc, true, some e⟩ : Run γ δ Attempt) >>= conclude) =
    (do
      retire
      let clock := (← get).cpu.clock
      setClock { clock with retired := ← count clock.retired 1 }
      match outcome with
      | .ok _ => return ()
      | .error e => enterException e pc) := by
  cases outcome <;> rfl

theorem step_eq : (step : Run γ δ Unit) = attempt >>= conclude := by
  simp only [attempt, step]
  simp only [bind_assoc]
  refine bind_congr fun _ => bind_congr fun pc => bind_congr fun _ => bind_congr fun m => ?_
  split
  · rw [bind_assoc]
    exact bind_congr fun _ => (conclude_refused _ pc).symm
  · rw [bind_assoc]
    refine bind_congr fun r => ?_
    cases r with
    | error e => exact (conclude_refused e pc).symm
    | ok word =>
      show complete word pc = ((executeWord word pc).run >>= fun r => _) >>= conclude
      rw [bind_assoc]
      exact bind_congr fun r => (conclude_executed r pc).symm

/-- The next step of the machine ends in the entry of this exception. -/
def Raises (m : Machine γ δ) (e : Exception) : Prop := (attempt m).value.1.exception = some e

/-- Where an attempt ends in an exception, it has moved no further than this. -/
def Faithful (M : Motion (Machine γ δ)) (x : Run γ δ Attempt) (m : Machine γ δ) : Prop :=
  (x m).value.1.exception ≠ none → Moves M x m

theorem value_then {β : Type} {x : Run γ δ α} {a : α} (h : (x m).value = (a, t))
    (f : α → Run γ δ β) : ((x >>= f) m).value = (f a t).value := by
  show (f (x m).value.1 (x m).value.2).value = _
  rw [h]

namespace Faithful
variable {M : Motion (Machine γ δ)} {x : Run γ δ α} {f : α → Run γ δ Attempt}

theorem after (hx : Moves M x m) (hf : ∀ a t, (x m).value = (a, t) → Faithful M (f a) t) :
    Faithful M (x >>= f) m :=
  fun h => .bind hx fun a t ht => hf a t ht (value_then ht f ▸ h)

theorem pure (a : Attempt) : Faithful M (Pure.pure a) m := fun _ => .pure a

end Faithful

theorem sampleLine_kept : Moves (kept taken) (sampleLine (γ := γ) (δ := δ)) m :=
  ⟨⟨rfl, rfl, rfl, rfl, rfl, rfl, rfl, rfl, rfl, .refl taken m.bus⟩, .of_acts rfl⟩

theorem advance_kept : Moves (kept taken) (advance (γ := γ) (δ := δ)) m :=
  .get_bind (.bind (modifyCpu_kept ⟨rfl, rfl, rfl, rfl, rfl, rfl, rfl, rfl⟩) fun _ _ _ => .pure _)

theorem tryWord_faithful (word pc : UInt32) :
    Faithful (kept (portAt pc)) (do
      match ← (executeWord word pc).run with
      | .ok _ => return ⟨pc, true, none⟩
      | .error e => return ⟨pc, true, some e⟩) m := by
  intro h
  cases hv : (executeWord (γ := γ) (δ := δ) word pc m).value with
  | mk r t =>
    cases r with
    | error e =>
      have hkept : Moves (kept noPort) (executeWord (γ := γ) (δ := δ) word pc) m := by
        simp only [Moves]
        rw [hv]
        exact executeWord_precise word pc e t hv
      refine .bind (kept_mono hkept) fun r u _ => ?_
      cases r <;> exact .pure _
    | ok a =>
      refine absurd ?_ h
      rw [value_then (x := (executeWord word pc).run) hv]
      rfl

theorem attempt_faithful : Faithful (kept (portAt m.cpu.regs.pc)) attempt m := by
  apply Faithful.after sampleLine_kept
  intro _ t ht
  apply Faithful.after advance_kept
  intro pc u hu
  have hpc : m.cpu.regs.pc = pc := by
    cases ht
    cases hu
    rfl
  rw [hpc]
  apply Faithful.after (spend_kept _)
  intro _ v _
  refine .after ((kept _).still v []) fun w x _ => ?_
  dsimp only
  split
  · exact .after ((kept _).still x [_]) fun _ _ _ => .pure _
  · apply Faithful.after (obtain_kept pc)
    intro r y _
    cases r with
    | error e => exact .pure _
    | ok word => exact tryWord_faithful word pc

/-- What is left of a machine when a step retires: the load on its way lands. -/
structure Retired (t u : Machine γ δ) : Prop where
  gprs : u.cpu.regs.gprs = (DelaySlots.land t.cpu.slots.load t.cpu.regs).value.gprs
  hi : u.cpu.regs.hi = (DelaySlots.land t.cpu.slots.load t.cpu.regs).value.hi
  lo : u.cpu.regs.lo = (DelaySlots.land t.cpu.slots.load t.cpu.regs).value.lo
  load : u.cpu.slots.load = t.cpu.slots.nextLoad
  nextLoad : u.cpu.slots.nextLoad = .none
  muldiv : u.cpu.muldiv = t.cpu.muldiv
  caches : u.cpu.caches = t.cpu.caches
  gteState : u.gteState = t.gteState
  bus : u.bus = t.bus

theorem conclude_retired (a : Attempt) (t : Machine γ δ) : Retired t (conclude a t).value.2 := by
  obtain ⟨pc, executed, exception⟩ := a
  cases executed <;> cases exception <;> exact ⟨rfl, rfl, rfl, rfl, rfl, rfl, rfl, rfl, rfl⟩

def silent {σ : Type} : Motion σ where
  holds _ r _ := r.acts = []
  still _ _ := rfl
  trans hr hq := by rw [Record.acts_append, hr, hq, List.append_nil]

theorem acts_land (l : LoadDelay) (f : RegisterFile) : (DelaySlots.land l f).record.acts = [] := by
  simp only [DelaySlots.land]
  split
  · rfl
  · split <;> rfl

theorem retire_silent : Moves silent (retire (γ := γ) (δ := δ)) m := by
  have hacts : (m.cpu.slots.retire m.cpu.regs).record.acts = [] :=
    (List.append_nil _).trans (acts_land _ _)
  exact .get_bind (.lift_bind hacts (.modify rfl))

theorem conclude_silent (a : Attempt) : Moves silent (conclude (γ := γ) (δ := δ) a) m := by
  apply Moves.bind retire_silent
  intro _ t _
  have hend : ∀ u : Machine γ δ, Moves silent (match a.exception with
      | none => pure ()
      | some e => enterException e a.pc) u := fun u => by
    cases a.exception with
    | none => exact .pure _
    | some e => exact rfl
  dsimp only
  split
  · refine .get_bind (.lift_bind (acts_count _ _) ?_)
    exact .bind (.modify rfl) fun _ u _ => hend u
  · exact hend t

theorem conclude_commandless (a : Attempt) :
    (conclude (γ := γ) (δ := δ) a m).record.Commandless := .of_acts (conclude_silent a)

theorem gpr_land {l : LoadDelay} (hl : l.WellFormed) (f : RegisterFile) (r : Reg) :
    (DelaySlots.land l f).value.gpr r = (l.valueFor (loadReg r)).getD (f.gpr r) := by
  cases l with
  | none => rfl
  | pending reg value =>
    obtain ⟨hpos, hlt⟩ := hl reg value rfl
    have hr : (loadReg r).toNat = r.val := Nat.mod_eq_of_lt (Nat.lt_trans r.isLt (by decide))
    have hreg : reg = loadReg r ↔ r ≠ 0 ∧ r = ⟨reg.toNat, hlt⟩ := by
      rw [← UInt64.toNat_inj, hr, Fin.ext_iff]
      refine ⟨fun h => ⟨?_, h.symm⟩, fun h => h.2.symm⟩
      rintro rfl
      exact absurd h (Nat.ne_of_gt hpos)
    have hland : (DelaySlots.land (.pending reg value) f).value = f.setGpr ⟨reg.toNat, hlt⟩ value := by
      unfold DelaySlots.land
      dsimp only
      rw [dif_pos hlt]
      rfl
    rw [hland, RegisterFile.gpr_setGpr]
    show _ = (if reg = loadReg r then some value else none).getD (f.gpr r)
    by_cases h : reg = loadReg r
    · rw [if_pos h, if_pos (hreg.mp h)]
      rfl
    · rw [if_neg h, if_neg (mt hreg.mpr h)]
      rfl

theorem gpr_congr {f g : RegisterFile} (h : f.gprs = g.gprs) (r : Reg) : f.gpr r = g.gpr r := by
  simp only [RegisterFile.gpr]
  rw [h]

theorem hilo_land (l : LoadDelay) (f : RegisterFile) :
    (DelaySlots.land l f).value.hi = f.hi ∧ (DelaySlots.land l f).value.lo = f.lo := by
  simp only [DelaySlots.land]
  split
  · exact ⟨rfl, rfl⟩
  · split
    · exact ⟨RegisterFile.hi_setGpr _ _ _, RegisterFile.lo_setGpr _ _ _⟩
    · exact ⟨rfl, rfl⟩

theorem cpu_poke (addr : UInt32) (words : List UInt32) : (poke addr words m).value.2.cpu = m.cpu := by
  induction words generalizing m addr with
  | nil => rfl
  | cons w words ih => exact ih (m := { m with bus := { m.bus with ram := m.bus.ram.setWord addr w } }) _

theorem cpu_loadRom (image : ByteArray) : (loadRom image m).value.2.cpu = m.cpu := by
  simp only [loadRom]
  cases Rom.ofImage? image <;> rfl

theorem Reachable.nextLoad_none (h : m.Reachable) : m.cpu.slots.nextLoad = .none := by
  induction h with
  | create | reset => rfl
  | attachGte _ _ _ ih | attachDevice _ _ _ ih => exact ih
  | raise _ _ ih | serialInput _ _ _ _ ih | listen _ _ _ ih => exact ih
  | bindReader _ _ _ ih | bindWriter _ _ _ ih => exact ih
  | loadRom image _ ih => exact (congrArg (·.slots.nextLoad) (cpu_loadRom image)).trans ih
  | poke addr words _ ih => exact (congrArg (·.slots.nextLoad) (cpu_poke addr words)).trans ih
  | @restore _ _ _ _ m c _ _ _ ih =>
    rw [m.restore_saved c.savestate]
    exact ih
  | @next _ _ m _ _ =>
    have h := (conclude_retired (attempt m).value.1 (attempt m).value.2).nextLoad
    show (step m).value.2.cpu.slots.nextLoad = _
    rw [step_eq]
    exact h

/-- What an exception makes of a machine, before its devices get their cycles. -/
structure Landed (taken : Fin 2 → Prop) (m u : Machine γ δ) : Prop where
  gpr : ∀ r, u.cpu.regs.gpr r = (m.cpu.slots.inFlight (loadReg r)).getD (m.cpu.regs.gpr r)
  hi : u.cpu.regs.hi = m.cpu.regs.hi
  lo : u.cpu.regs.lo = m.cpu.regs.lo
  load : u.cpu.slots.load = .none
  nextLoad : u.cpu.slots.nextLoad = .none
  muldiv : u.cpu.muldiv = m.cpu.muldiv
  data : u.cpu.caches.data = m.cpu.caches.data
  biu : u.cpu.caches.biu = m.cpu.caches.biu
  gteState : u.gteState = m.gteState
  bus : Bus.Kept taken m.bus u.bus

/-- A machine that has been kept and then retires has landed its load. -/
theorem Kept.landed (h : Kept taken m t) (hu : Retired t u) (hload : m.cpu.slots.load.WellFormed)
    (hnext : m.cpu.slots.nextLoad = .none) : Landed taken m u where
  gpr r := by
    rw [gpr_congr hu.gprs, gpr_land (h.load.symm ▸ hload), h.load, gpr_congr h.gprs]
    rfl
  hi := hu.hi.trans ((hilo_land _ _).1.trans h.hi)
  lo := hu.lo.trans ((hilo_land _ _).2.trans h.lo)
  load := hu.load.trans (h.nextLoad.trans hnext)
  nextLoad := hu.nextLoad
  muldiv := hu.muldiv.trans h.muldiv
  data := (congrArg Caches.data hu.caches).trans h.data
  biu := (congrArg Caches.biu hu.caches).trans h.biu
  gteState := hu.gteState.trans h.gteState
  bus := hu.bus ▸ h.bus

/-- Exceptions are precise: a step of a machine that a host can bring about lands the load on its way if
it raises one, and changes nothing else that is not the exception's own; only a fetch from the data
register of a serial port takes the character that waits there. -/
theorem Reachable.step_precise (h : m.Reachable) {e : Exception} (he : m.Raises e) :
    Landed (portAt m.cpu.regs.pc) m (step m).value.2 ∧ (step m).record.Commandless := by
  have hattempt : Moves (kept _) attempt m := attempt_faithful (he ▸ nofun)
  rw [step_eq]
  exact ⟨hattempt.1.landed (conclude_retired _ _) h.wellFormed.slots.load h.nextLoad_none,
    hattempt.2.append (conclude_commandless _)⟩

/-- A load is on its way, and a system call comes next. -/
def loading : Machine Gte.Registers Unit :=
  (booting [0x3c08bfc0, 0x8d090000, 0x0000000c] (by decide)).steps 2

set_option maxRecDepth 10000 in
theorem step_precise_loading : loading.Reachable ∧ loading.Raises .syscall ∧
    loading.cpu.regs.gpr 9 = 0 ∧ (step loading).value.2.cpu.regs.gpr 9 = 0x3c08bfc0 := by
  have hreach : loading.Reachable := (reachable_booting _ _).steps 2
  have hraise : loading.Raises .syscall := by
    simp only [Raises]
    decide +kernel
  refine ⟨hreach, hraise, by decide +kernel, ((hreach.step_precise hraise).1.gpr 9).trans ?_⟩
  decide +kernel

/-- Sends a level down the wire into the first serial port. -/
def lined (m : Machine Gte.Registers Unit) (level : UInt32) : Machine Gte.Registers Unit :=
  (onBus (Bus.serialInput 0 1 level) m).value.2

theorem Reachable.lined {m : Machine Gte.Registers Unit} (h : m.Reachable) (level : UInt32) :
    (m.lined level).Reachable :=
  h.serialInput 0 1 level

/-- Sets the first serial port up to receive at its fastest, and jumps to its data register. -/
def listening : Machine Gte.Registers Unit :=
  booting [0x3c08bf80, 0x3c090005, 0x35290001, 0xad09104c, 0xad091048, 0xad091040, 0x35081040, 0,
    0x01000008, 0] (by decide)

/-- The character that arrives by the time of the jump encodes a system call. -/
def answered : Machine Gte.Registers Unit := ((((listening.steps 7).lined 1).steps 2).lined 0).steps 1

theorem reachable_answered : answered.Reachable :=
  .steps 1 (.lined (.steps 2 (.lined (.steps 7 (reachable_booting _ _)) 1)) 0)

set_option maxRecDepth 10000 in
/-- The system call that is fetched from a port has taken the character that it is. -/
theorem step_takes_character : answered.Reachable ∧ answered.Raises .syscall ∧
    ¬Landed noPort answered (step answered).value.2 := by
  refine ⟨reachable_answered, ?_, fun h => ?_⟩
  · simp only [Raises]
    decide +kernel
  · refine absurd ((h.bus.ports 0).resolve_right (·.1)) ?_
    decide +kernel

end R3000.Machine
