import R3000.Proofs.MulDivCourse

/-! # A machine whose results do not wait

On this machine a multiplication or a division stores its result in HI and LO at once, and moves to
and from them do nothing but move; of an operation only its time is kept, which a read still waits for.
From the same state both machines do the same, step by step, up to a result that the one has stored and
the other still owes. -/
namespace R3000

theorem RegisterFile.setGpr_hilo (f : RegisterFile) (hi lo : UInt32) (r : Reg) (value : UInt32) :
    RegisterFile.setGpr { f with hi, lo } r value =
      { f with hi, lo, gprs := (f.setGpr r value).gprs } := by
  unfold RegisterFile.setGpr
  split <;> rfl

theorem DelaySlots.land_hilo (l : LoadDelay) (f : RegisterFile) (hi lo : UInt32) :
    land l { f with hi, lo } =
      (fun r : RegisterFile => { f with hi, lo, gprs := r.gprs }) <$> land l f := by
  cases l with
  | none => rfl
  | pending reg value =>
    simp only [land]
    split
    · rw [RegisterFile.setGpr_hilo]
      rfl
    · rfl

namespace Machine
variable {γ δ α : Type} {m t : Machine γ δ}

def issueEagerly (op : MulDivOp) (lhs rhs : UInt32) : Exec γ δ Unit := do
  issueMulDiv op lhs rhs
  let (hi, lo) := op.compute lhs rhs
  modifyRegs ({ · with hi, lo })

/-- Gives the cycles that a read waits for the last operation, if none has waited for it yet. -/
def releaseMulDiv : Exec γ δ UInt32 := do
  let cpu := (← get).cpu
  let (stall, muldiv, _) ← cpu.muldiv.resolve cpu.regs cpu.clock.retired
  plain (modifyCpu fun c => { c with muldiv })
  return stall

def executeEagerly (i : Instruction) (pc : UInt32) : Exec γ δ Unit := do
  match i with
  | .register (.muldiv op) f => issueEagerly op (← gpr f.rs) (← gpr f.rt)
  | .register .mfhi f =>
    let stall ← releaseMulDiv
    plain (spend stall.toUInt64)
    setGpr f.rd (← get).cpu.regs.hi
  | .register .mflo f =>
    let stall ← releaseMulDiv
    plain (spend stall.toUInt64)
    setGpr f.rd (← get).cpu.regs.lo
  | .register .mthi f =>
    let _ ← releaseMulDiv
    let value ← gpr f.rs
    modifyRegs ({ · with hi := value })
  | .register .mtlo f =>
    let _ ← releaseMulDiv
    let value ← gpr f.rs
    modifyRegs ({ · with lo := value })
  | i => execute i pc

section Step
variable (exec : Instruction → UInt32 → Exec γ δ Unit)

/-- Executes the instruction that a word encodes; `exec` says what instructions do. -/
def executeWordBy (word pc : UInt32) : Exec γ δ Unit := do
  match Instruction.decode word with
  | some i =>
    note (.executing pc i)
    exec i pc
  | none => note (.malformed word pc)

def completeBy (word pc : UInt32) : Run γ δ Unit := do
  let outcome ← (executeWordBy exec word pc).run
  retire
  let clock := (← get).cpu.clock
  setClock { clock with retired := ← count clock.retired 1 }
  match outcome with
  | .ok _ => return ()
  | .error e => enterException e pc

def stepBy : Run γ δ Unit := do
  sampleLine
  let pc ← advance
  spend instructionCost
  let cop0 := (← get).cpu.regs.cop0
  if cop0.interrupted then
    note (.interrupt pc cop0.cause.ip)
    abort .interrupt pc
  else
    match ← (obtain pc).run with
    | .error e => abort e pc
    | .ok word => completeBy exec word pc

end Step

theorem stepBy_execute : stepBy (execute (γ := γ) (δ := δ)) = step := rfl

def stepEagerly : Run γ δ Unit := stepBy executeEagerly

def settled (m : Machine γ δ) : Machine γ δ := m.withResults m.results.settled

theorem settled_of_idle (h : m.cpu.muldiv.pending = none) : m.settled = m := by
  have hresults : m.results.settled = m.results := by
    simp only [Results.settled, Results.due, results]
    rw [h]
    rfl
  rw [settled, hresults]
  rfl

/-- The registers have no part in what a resolution reports. -/
theorem record_resolve (u : MulDivUnit) (f f' : RegisterFile) (retired : UInt64) :
    (u.resolve f retired).record = (u.resolve f' retired).record := by
  obtain ⟨pending⟩ := u
  cases pending with
  | none => rfl
  | some p =>
    simp only [MulDivUnit.resolve_eq]
    split <;> rfl

theorem releaseMulDiv_eq (m : Machine γ δ) :
    releaseMulDiv m = (fun r => (.ok r.1, { m with cpu := { m.cpu with muldiv := r.2.1 } })) <$>
      m.cpu.muldiv.resolve m.cpu.regs m.cpu.clock.retired := by
  refine Reported.eq_of rfl ?_
  rw [Reported.record_map]
  show (m.cpu.muldiv.resolve m.cpu.regs m.cpu.clock.retired).record ++ {} ++ {} ++ {} = _
  simp only [Record.append_empty]

theorem retire_eq (m : Machine γ δ) :
    retire m = (fun regs => ((), { m with
        cpu := { m.cpu with slots := m.cpu.slots.advance, regs } })) <$>
      DelaySlots.land m.cpu.slots.load m.cpu.regs := by
  refine Reported.eq_of rfl ?_
  rw [Reported.record_map]
  show (DelaySlots.land m.cpu.slots.load m.cpu.regs).record ++ {} ++ {} ++ {} = _
  simp only [Record.append_empty]

theorem executeEagerly_unused {i : Instruction} (hi : i.usesUnit = false) (pc : UInt32) :
    (executeEagerly i pc : Exec γ δ Unit) = execute i pc := by
  match i with
  | .immediate _ _ | .jump _ _ => rfl
  | .register op _ => cases op <;> first | rfl | cases hi

namespace Simulates

theorem of_ignores {x : Run γ δ α} (h : Ignores id Results.settled x m) :
    Simulates settled x x m := h

theorem setGpr (r : Reg) (value : UInt32) :
    Simulates settled (setGpr r value : Exec γ δ Unit)
      (Machine.setGpr r value : Exec γ δ Unit) m := by
  refine .exec_bind (.plain (.modified rfl)) fun _ t _ => .plain (.modified ?_)
  have heager := t.cpu.regs.setGpr_hilo t.settled.cpu.regs.hi t.settled.cpu.regs.lo r value
  have hlazy := t.cpu.regs.setGpr_frame r value
  generalize (t.cpu.regs.setGpr r value).gprs = gprs at heager hlazy
  dsimp only
  rw [hlazy]
  exact congrArg (fun regs => { t.settled with cpu := { t.settled.cpu with regs } }) heager

theorem finish (d : BranchDelay) (e : Effect) :
    Simulates settled (finish d e : Exec γ δ Unit) (Machine.finish d e : Exec γ δ Unit) m := by
  refine .exec_bind ?_ fun _ t _ => ?_
  · cases e with
    | keep => exact .pure _
    | write r value => exact setGpr r value
    | load r value => exact .exec_bind (.exec_lift _) fun _ _ _ => .plain (.modified rfl)
  · cases d with
    | none => exact .pure _
    | notTaken => exact .plain (.modified rfl)
    | pending target => exact .exec_bind (.exec_lift _) fun _ _ _ => .plain (.modified rfl)

theorem issueMulDiv (op : MulDivOp) (lhs rhs : UInt32) :
    Simulates settled (issueEagerly op lhs rhs : Exec γ δ Unit)
      (issueMulDiv op lhs rhs : Exec γ δ Unit) m := rfl

theorem resolveMulDiv :
    Simulates settled (releaseMulDiv : Exec γ δ UInt32) (resolveMulDiv : Exec γ δ UInt32) m := by
  simp only [Simulates]
  rw [releaseMulDiv_eq, resolveMulDiv_eq]
  refine Reported.eq_of ?_ ?_
  · simp only [Reported.value_map, value_resolve]
    rfl
  · simp only [Reported.record_map]
    exact record_resolve _ _ _ _

theorem execute (i : Instruction) (pc : UInt32) :
    Simulates settled (executeEagerly i pc : Exec γ δ Unit) (execute i pc : Exec γ δ Unit) m := by
  cases hi : i.usesUnit with
  | false =>
    rw [executeEagerly_unused hi]
    simp only [Simulates]
    rw [execute_eq, execute_eq]
    exact Simulates.exec_bind (.of_ignores (.perform _ pc hi)) fun e _ _ => .finish _ e
  | true =>
    have hresolve := value_resolveMulDiv m
    match i, hi with
    | .register (.muldiv op) f, _ =>
      exact .exec_bind rfl fun _ _ _ => .exec_bind rfl fun _ _ _ => .issueMulDiv _ _ _
    | .register .mfhi f, _ | .register .mflo f, _ =>
      refine .exec_bind resolveMulDiv fun stall t ht => ?_
      rw [hresolve] at ht
      cases ht
      refine .exec_bind (.plain (.of_ignores (.spend _))) fun _ u hu => .exec_get_bind ?_
      cases hu
      exact .setGpr _ _
    | .register .mthi f, _ | .register .mtlo f, _ =>
      refine .exec_bind resolveMulDiv fun stall t ht => ?_
      rw [hresolve] at ht
      cases ht
      refine .exec_bind (x := gpr f.rs) rfl fun _ u hu => ?_
      cases hu
      exact .plain (.modified rfl)

theorem retire : Simulates settled (retire : Run γ δ Unit) (Machine.retire : Run γ δ Unit) m := by
  have heager : DelaySlots.land m.settled.cpu.slots.load m.settled.cpu.regs = _ :=
    DelaySlots.land_hilo m.cpu.slots.load m.cpu.regs _ _
  have hlazy := DelaySlots.land_frame m.cpu.slots.load m.cpu.regs
  simp only [Simulates]
  rw [retire_eq, retire_eq, heager]
  refine Reported.eq_of ?_ ?_
  · simp only [Reported.value_map]
    rw [hlazy]
    rfl
  · simp only [Reported.record_map]

theorem enterException (e : Exception) (pc : UInt32) :
    Simulates settled (enterException e pc : Run γ δ Unit)
      (Machine.enterException e pc : Run γ δ Unit) m :=
  .look rfl (.bind (.lift _) fun _ _ _ => .modified rfl)

theorem abort (e : Exception) (pc : UInt32) :
    Simulates settled (abort e pc : Run γ δ Unit) (Machine.abort e pc : Run γ δ Unit) m :=
  .bind .retire fun _ _ _ => .enterException e pc

theorem executeWord (word pc : UInt32) :
    Simulates settled (executeWordBy executeEagerly word pc : Exec γ δ Unit)
      (executeWordBy Machine.execute word pc : Exec γ δ Unit) m := by
  simp only [executeWordBy]
  split
  · exact .exec_bind (.exec_lift _) fun _ _ _ => .execute _ pc
  · exact .exec_lift _

theorem complete (word pc : UInt32) :
    Simulates settled (completeBy executeEagerly word pc)
      (completeBy Machine.execute word pc) m := by
  refine .bind (executeWord word pc) fun outcome _ _ => .bind .retire fun _ _ _ => ?_
  refine .get_bind (.bind (.lift _) fun _ _ _ => .bind (.modified rfl) fun _ _ _ => ?_)
  cases outcome with
  | ok a => exact .pure _
  | error e => exact .enterException e pc

theorem step : Simulates settled (stepEagerly : Run γ δ Unit) (step : Run γ δ Unit) m := by
  refine .bind (.modified rfl) fun _ _ _ => .bind ?_ fun pc _ _ =>
    .bind (.of_ignores (.spend _)) fun _ t _ => .get_bind ?_
  · exact .look rfl (.bind (.modified rfl) fun _ _ _ => .pure _)
  show Simulates settled (if t.cpu.regs.cop0.interrupted then _ else _)
    (if t.cpu.regs.cop0.interrupted then _ else _) t
  split
  · exact .bind (.lift _) fun _ _ _ => .abort .interrupt pc
  · refine .bind (.of_ignores (.obtain pc)) fun r _ _ => ?_
    cases r with
    | error e => exact .abort e pc
    | ok word => exact .complete word pc

end Simulates

def SuccessiveEagerly (e : Nat → Machine γ δ) : Prop :=
  ∀ k, (e (k + 1)).cpu = (stepEagerly (e k)).value.2.cpu

variable {s : Nat → Machine γ δ}

/-- Stored results follow a run as the results do that are owed. -/
theorem Successive.settled (hs : Successive s) : SuccessiveEagerly fun k => (s k).settled := by
  intro k
  have hcpu : ∀ {t u : Machine γ δ}, t.cpu = u.cpu → t.settled.cpu = u.settled.cpu := by
    intro t u h
    simp only [Machine.settled, withResults, results]
    rw [h]
  rw [(Simulates.step (m := s k)).value]
  exact hcpu (hs k)

theorem Successive.results (hs : Successive s) (k : Nat) : (s (k + 1)).results =
    { (s k).completed?.elim (s k).results fun i => i.operate (s k).cpu.regs.gpr (s k).results with
      retired := (s k).results.retired + if (s k).executes then 1 else 0 } := by
  rw [← results_step]
  simp only [Machine.results]
  rw [hs k]

def hilo (m : Machine γ δ) : UInt32 × UInt32 := (m.cpu.regs.hi, m.cpu.regs.lo)

def withHilo (m : Machine γ δ) (v : UInt32 × UInt32) : Machine γ δ :=
  { m with cpu := { m.cpu with regs := { m.cpu.regs with hi := v.1, lo := v.2 } } }

/-- The two run alike, and `e` never owes a result: its machines differ from those of `s` in nothing but
HI and LO. -/
structure Twins (s e : Nat → Machine γ δ) : Prop where
  start : e 0 = s 0
  eager : SuccessiveEagerly e
  same : ∀ k, e k = (s k).withHilo (e k).hilo
  step : ∀ k, stepEagerly (e k) =
    (fun p => (p.1, p.2.withHilo (stepEagerly (e k)).value.2.hilo)) <$> step (s k)
  /-- Only a completed instruction stores something in HI and LO. -/
  stored : ∀ k, (e (k + 1)).hilo =
    (s k).completed?.elim (e k).hilo fun i => i.stored (s k).cpu.regs.gpr (e k).hilo
  hi : ∀ k f, (s k).completed? = some (.register .mfhi f) →
    (s k).effect = .write f.rd (e k).cpu.regs.hi
  lo : ∀ k f, (s k).completed? = some (.register .mflo f) →
    (s k).effect = .write f.rd (e k).cpu.regs.lo

theorem Successive.twins (hs : Successive s) (h : (s 0).cpu.muldiv.pending = none) :
    Twins s fun k => (s k).settled where
  start := settled_of_idle h
  eager := hs.settled
  same _ := rfl
  step k := by
    have hstep := Simulates.step (m := s k)
    refine Reported.eq_of ?_ (hstep.record.trans (Reported.record_map _ _).symm)
    rw [hstep.value]
    rfl
  stored k := by
    show (s (k + 1)).results.due = _
    rw [hs.results]
    cases (s k).completed? with
    | none => rfl
    | some i => exact i.due_operate _ _
  hi _ _ hk := effect_unit hk rfl
  lo _ _ hk := effect_unit hk rfl

end Machine
end R3000
