import R3000.Proofs.LoadDelay

/-! # What a step does to the multiply and divide unit

An operation leaves its operands with the unit, an access to HI or LO writes the result that is due,
and every other instruction, fetch or exception leaves the unit and both registers as they are. A read
waits for the result that it is the first to need; nothing else waits. -/
namespace R3000

namespace Machine.Results

/-- What HI and LO hold once the pending result, if any, is there. -/
def due (r : Results) : UInt32 × UInt32 :=
  r.muldiv.pending.elim (r.hi, r.lo) fun p => p.op.compute p.lhs p.rhs

/-- HI and LO hold what is due. -/
def settled (r : Results) : Results := { r with hi := r.due.1, lo := r.due.2 }

/-- HI and LO hold what is due, and nothing is pending any more. -/
def resolved (r : Results) : Results := { r.settled with muldiv := {} }

def stall (r : Results) : UInt32 := r.muldiv.pending.elim 0 (·.stall r.retired)

end Machine.Results

namespace Instruction

def issues : Instruction → Bool
  | .register (.muldiv _) _ => true
  | _ => false

def reads : Instruction → Bool
  | .register .mfhi _ | .register .mflo _ => true
  | _ => false

def overwrites : Instruction → Bool
  | .register .mthi _ | .register .mtlo _ => true
  | _ => false

def touches (i : Instruction) : Bool := i.reads || i.overwrites

/-- What an instruction makes of the unit and the registers of its results. -/
def operate (i : Instruction) (gpr : Reg → UInt32) (r : Machine.Results) : Machine.Results :=
  match i with
  | .register (.muldiv op) f =>
    { r with muldiv := .issue op (gpr f.rs) (gpr f.rt) r.retired }
  | .register .mfhi _ | .register .mflo _ => r.resolved
  | .register .mthi f => { r.resolved with hi := gpr f.rs }
  | .register .mtlo f => { r.resolved with lo := gpr f.rs }
  | _ => r

/-- The cycles that an instruction waits for the unit. -/
def interlock (i : Instruction) (r : Machine.Results) : UInt32 := if i.reads then r.stall else 0

def moved (i : Instruction) (r : Machine.Results) : Effect :=
  match i with
  | .register .mfhi f => .write f.rd r.due.1
  | .register .mflo f => .write f.rd r.due.2
  | _ => .keep

/-- What an instruction leaves in HI and LO where no result waits. -/
def stored (i : Instruction) (gpr : Reg → UInt32) (hilo : UInt32 × UInt32) : UInt32 × UInt32 :=
  match i with
  | .register (.muldiv op) f => op.compute (gpr f.rs) (gpr f.rt)
  | .register .mthi f => (gpr f.rs, hilo.2)
  | .register .mtlo f => (hilo.1, gpr f.rs)
  | _ => hilo

theorem due_operate (i : Instruction) (gpr : Reg → UInt32) (r : Machine.Results) :
    (i.operate gpr r).due = i.stored gpr r.due := by
  match i with
  | .immediate _ _ | .jump _ _ => rfl
  | .register op _ => cases op <;> rfl

theorem usesUnit_eq (i : Instruction) : i.usesUnit = (i.issues || i.touches) := by
  match i with
  | .immediate _ _ | .jump _ _ => rfl
  | .register op _ => cases op <;> rfl

theorem usesUnit_of_touches {i : Instruction} (h : i.touches) : i.usesUnit := by
  rw [usesUnit_eq, h, Bool.or_true]

theorem touches_of_reads {i : Instruction} (h : i.reads) : i.touches := by
  rw [touches, h, Bool.true_or]

theorem operate_unused {i : Instruction} (hi : i.usesUnit = false) (gpr : Reg → UInt32)
    (r : Machine.Results) : i.operate gpr r = r := by
  match i with
  | .immediate _ _ | .jump _ _ => rfl
  | .register op _ => cases op <;> first | rfl | cases hi

/-- After an access nothing is pending. -/
theorem operate_touched {i : Instruction} (hi : i.touches) (gpr : Reg → UInt32)
    (r : Machine.Results) : (i.operate gpr r).muldiv.pending = none := by
  match i, hi with
  | .register .mfhi _, _ | .register .mflo _, _ | .register .mthi _, _ | .register .mtlo _, _ => rfl

/-- Only an issue makes something pending. -/
theorem operate_idle {i : Instruction} (hi : i.issues = false) (gpr : Reg → UInt32)
    {r : Machine.Results} (hr : r.muldiv.pending = none) :
    (i.operate gpr r).muldiv.pending = none := by
  cases hu : i.usesUnit with
  | false => rw [operate_unused hu, hr]
  | true =>
    rw [usesUnit_eq, hi, Bool.false_or] at hu
    exact operate_touched hu gpr r

@[simp] theorem operate_retired (i : Instruction) (gpr : Reg → UInt32) (r : Machine.Results) :
    (i.operate gpr r).retired = r.retired := by
  match i with
  | .immediate _ _ | .jump _ _ => rfl
  | .register op _ => cases op <;> rfl

end Instruction

namespace Machine
variable {γ δ α : Type} {m t u : Machine γ δ}

def later (m : Machine γ δ) (cycles : UInt64) : Machine γ δ :=
  { m with cpu := { m.cpu with clock := { m.cpu.clock with cycles := m.cpu.clock.cycles + cycles } } }

theorem later_zero (m : Machine γ δ) : m.later 0 = m := by
  unfold later
  rw [UInt64.add_zero]

theorem value_spend (cycles : UInt64) (m : Machine γ δ) :
    (plain (spend cycles) m : Reported (Except Exception Unit × Machine γ δ)).value =
      (.ok (), m.later cycles) := rfl

theorem value_resolve (m : Machine γ δ) :
    (m.cpu.muldiv.resolve m.cpu.regs m.cpu.clock.retired).value =
      (m.results.stall, {}, { m.cpu.regs with hi := m.results.due.1, lo := m.results.due.2 }) := by
  obtain ⟨config, ⟨caches, slots, regs, ⟨pending⟩, clock⟩, bus, gte, gteState⟩ := m
  cases pending with
  | none => rfl
  | some p =>
    simp only [MulDivUnit.resolve_eq]
    split <;> rfl

theorem value_resolveMulDiv (m : Machine γ δ) :
    (resolveMulDiv m).value = (.ok m.results.stall, m.withResults m.results.resolved) := by
  rw [resolveMulDiv_eq, Reported.value_map, value_resolve]
  rfl

/-- The work of an instruction on the unit. -/
theorem perform_unit {i : Instruction} (hi : i.usesUnit) (o : Operands) (pc : UInt32)
    (m : Machine γ δ) :
    (perform o pc i m).value = (.ok (i.moved m.results),
      (m.withResults (i.operate o.gpr m.results)).later (i.interlock m.results).toUInt64) := by
  have hresolve := value_resolveMulDiv m
  match i, hi with
  | .register (.muldiv op) f, _ =>
    exact congrArg (fun n => (Except.ok Effect.keep, n)) (later_zero _).symm
  | .register .mfhi f, _ | .register .mflo f, _ =>
    simp only [perform, performRegister]
    rw [exec_bind_ok hresolve, exec_bind_ok (value_spend _ _)]
    rfl
  | .register .mthi f, _ | .register .mtlo f, _ =>
    refine Eq.trans ?_ (congrArg (fun n => (Except.ok Effect.keep, n)) (later_zero _).symm)
    simp only [perform, performRegister]
    rw [exec_bind_ok hresolve]
    rfl

/-- What goes along with every change of the unit leaves it alone. -/
theorem Ignores.results_of_value {x : Run γ δ α} {a : α} (hx : ∀ ψ, Ignores id ψ x m)
    (h : (x m).value = (a, t)) : t.results = m.results := by
  have hvalue : (x m).value = ((x m).value.1, around id (fun _ => m.results) (x m).value.2) :=
    (hx fun _ => m.results).value
  rw [h] at hvalue
  exact congrArg (·.2.results) hvalue

theorem results_obtained {r : Except Exception UInt32}
    (h : (obtain m.cpu.regs.pc m.opened).value = (r, t)) : t.results = m.results :=
  (Ignores.results_of_value (fun _ => .obtain _) h : t.results = m.opened.results)

theorem results_performed {o : Operands} {pc : UInt32} {i : Instruction} (hi : i.usesUnit = false)
    {r : Except Exception Effect} (h : (perform o pc i t).value = (r, u)) : u.results = t.results :=
  Ignores.results_of_value (fun _ => .perform o pc hi) h

theorem finish_clock (d : BranchDelay) (e : Effect) (t : Machine γ δ) :
    (finish d e t).value.2.cpu.clock = t.cpu.clock := by
  rw [finish_value, commit_value]
  cases d <;> rfl

theorem finish_results (d : BranchDelay) (e : Effect) (t : Machine γ δ) :
    (finish d e t).value.2.results = t.results := by
  have hhi : (e.regs t.cpu.regs).hi = t.cpu.regs.hi := congrArg (·.hi) (e.regs_frame _)
  have hlo : (e.regs t.cpu.regs).lo = t.cpu.regs.lo := congrArg (·.lo) (e.regs_frame _)
  have hregs : (finish d e t).value.2.results =
      { t.results with hi := (e.regs t.cpu.regs).hi, lo := (e.regs t.cpu.regs).lo } := by
    rw [finish_value, commit_value]
    cases d <;> rfl
  rw [hregs, hhi, hlo]
  rfl

def executes (m : Machine γ δ) : Bool := (attempt m).value.1.executed

def fetched (m : Machine γ δ) : Machine γ δ := (obtain m.cpu.regs.pc m.opened).value.2

theorem conclude_clock (a : Attempt) (t : Machine γ δ) : (conclude a t).value.2.cpu.clock =
    { t.cpu.clock with retired := t.cpu.clock.retired + if a.executed then 1 else 0 } := by
  obtain ⟨pc, executed, exception⟩ := a
  cases executed with
  | false =>
    show _ = { t.cpu.clock with retired := t.cpu.clock.retired + 0 }
    rw [UInt64.add_zero]
    cases exception <;> rfl
  | true => cases exception <;> rfl

theorem conclude_results (a : Attempt) (t : Machine γ δ) : (conclude a t).value.2.results =
    { t.results with retired := t.results.retired + if a.executed then 1 else 0 } := by
  obtain ⟨hhi, hlo⟩ := hilo_land t.cpu.slots.load t.cpu.regs
  have hretired := conclude_retired a t
  simp only [results]
  rw [conclude_clock, hretired.hi, hretired.lo, hretired.muldiv, hhi, hlo]

/-- Of all that a step does up to where it retires only a completed instruction reaches the unit. -/
theorem Course.results {a : Attempt} {c : Option Instruction} (h : Course m a c t) :
    t.results = c.elim m.results fun i => i.operate m.cpu.regs.gpr m.results := by
  cases h with
  | interrupted => rfl
  | refused _ ho => exact results_obtained ho
  | skipped _ ho => exact results_obtained ho
  | @faulted _ v _ i e _ ho hd hp =>
    cases hi : i.usesUnit with
    | false => exact (results_performed hi hp).trans (results_obtained ho)
    | true =>
      rw [perform_unit hi] at hp
      cases hp
  | @completed _ v u i effect _ ho hd hp =>
    rw [finish_results, Option.elim_some, ← results_obtained ho]
    cases hi : i.usesUnit with
    | false => exact (results_performed hi hp).trans (i.operate_unused hi _ _).symm
    | true =>
      rw [perform_unit hi] at hp
      cases hp
      rfl

/-- What a step makes of the unit. -/
theorem results_step (m : Machine γ δ) : (step m).value.2.results =
    { m.completed?.elim m.results fun i => i.operate m.cpu.regs.gpr m.results with
      retired := m.results.retired + if m.executes then 1 else 0 } := by
  rw [step_value, conclude_results, m.course.results]
  cases m.completed? with
  | none => rfl
  | some i => rw [Option.elim_some, Instruction.operate_retired]; rfl

/-- A completed step, one part after the other. -/
theorem course_completed {i : Instruction} (h : m.completed? = some i) :
    ∃ effect u, (perform m.operands m.cpu.regs.pc i m.fetched).value = (.ok effect, u) ∧
      m.fetched.results = m.results ∧
      (attempt m).value = (⟨m.cpu.regs.pc, true, none⟩,
        (finish (i.decision m.cpu.regs.pc m.cpu.regs.gpr) effect u).value.2) ∧
      m.effect = effect := by
  have hcourse := m.course
  rw [h] at hcourse
  generalize hv : (attempt m).value = v at hcourse
  obtain ⟨a, w⟩ := v
  cases hcourse with
  | @completed word t u _ effect hi ho hd hp =>
    have hfetched : m.fetched = t := congrArg Prod.snd ho
    have hwork : (work m.operands m).value = ((⟨m.cpu.regs.pc, true, none⟩, effect),
        (decideBranch (i.decision m.cpu.regs.pc m.operands.gpr) u).value.2) := by
      rw [work_decoded hi ho hd]
      exact value_then (x := (perform _ _ _).run) hp _
    refine ⟨effect, u, hfetched ▸ hp, hfetched ▸ results_obtained ho, rfl, ?_⟩
    exact congrArg Prod.fst (value_then (x := work m.operands) hwork _)

/-- The cycles of the next step after it has its instruction. -/
def executionCycles (m : Machine γ δ) : UInt64 :=
  (step m).value.2.cpu.clock.cycles - m.fetched.cpu.clock.cycles

section Unit
variable {i : Instruction} (h : m.completed? = some i) (hi : i.usesUnit)
include h hi

/-- What moves from HI or LO is what is due there. -/
theorem effect_unit : m.effect = i.moved m.results := by
  obtain ⟨effect, u, hp, hresults, -, heffect⟩ := course_completed h
  rw [perform_unit hi] at hp
  cases hp
  rw [heffect, hresults]

theorem executionCycles_unit : m.executionCycles = (i.interlock m.results).toUInt64 := by
  obtain ⟨effect, u, hp, hresults, hattempt, -⟩ := course_completed h
  rw [perform_unit hi, hresults] at hp
  cases hp
  rw [executionCycles, step_value, hattempt, conclude_clock, finish_clock]
  dsimp only [later, withResults]
  rw [UInt64.add_comm, UInt64.add_sub_cancel]

end Unit

end Machine
end R3000
