import R3000.Proofs.PreciseExceptions
import R3000.Proofs.Simulation

/-! # Instructions read their operands first and write their results last

The work of an instruction does not depend on what is in the registers and the delay slots, and leaves
them as they are. So an instruction may as well read all its operands before its work, and afterwards
write its register or issue its load, and decide its branch. -/
namespace R3000.Machine
variable {γ δ α β : Type} {m t : Machine γ δ}

def under (φ : Front → Front) (m : Machine γ δ) : Machine γ δ := m.withFront (φ m.front)

theorem resolveMulDiv_eq (m : Machine γ δ) :
    resolveMulDiv m =
      (fun r => (.ok r.1, { m with cpu := { m.cpu with muldiv := r.2.1, regs := r.2.2 } })) <$>
        m.cpu.muldiv.resolve m.cpu.regs m.cpu.clock.retired := by
  refine Reported.eq_of rfl ?_
  rw [Reported.record_map]
  show (m.cpu.muldiv.resolve m.cpu.regs m.cpu.clock.retired).record ++ {} ++ {} ++ {} = _
  simp only [Record.append_empty]

/-- From here it makes no difference whether the front is changed before the computation or after. -/
def Commutes (φ : Front → Front) (x : Run γ δ α) (m : Machine γ δ) : Prop :=
  x (m.under φ) = (fun p => (p.1, p.2.under φ)) <$> x m

namespace Commutes
variable {φ : Front → Front}

theorem of_ignores {x : Run γ δ α} (h : Ignores φ id x m) : Commutes φ x m := h

theorem pure (a : α) : Commutes φ (pure a : Run γ δ α) m := rfl

theorem bind {x : Run γ δ α} {f : α → Run γ δ β} (hx : Commutes φ x m)
    (hf : ∀ a t, (x m).value = (a, t) → Commutes φ (f a) t) : Commutes φ (x >>= f) m :=
  Simulates.bind hx hf

theorem get_bind {f : Machine γ δ → Run γ δ β} (hk : f (m.under φ) = f m)
    (hf : Commutes φ (f m) m) : Commutes φ (get >>= f) m :=
  Simulates.look hk hf

theorem modified {f : Machine γ δ → Machine γ δ} (hf : f (m.under φ) = (f m).under φ) :
    Commutes φ (modify f : Run γ δ PUnit) m :=
  Simulates.modified hf

theorem lift (x : Reported α) : Commutes φ (liftM x : Run γ δ α) m := Simulates.lift x

theorem exec_bind {x : Exec γ δ α} {f : α → Exec γ δ β} (hx : Commutes φ (x : Run γ δ _) m)
    (hf : ∀ a t, (x m).value = (.ok a, t) → Commutes φ (f a : Run γ δ _) t) :
    Commutes φ (x >>= f : Exec γ δ β) m :=
  Simulates.exec_bind hx hf

theorem plain {x : Run γ δ α} (hx : Commutes φ x m) : Commutes φ (R3000.plain x) m :=
  Simulates.plain hx

theorem setClock (clock : Clock) : Commutes φ (setClock clock : Run γ δ Unit) m := modified rfl

theorem spend (cycles : UInt64) : Commutes φ (spend cycles : Run γ δ Unit) m :=
  of_ignores (.spend cycles)

theorem exec_get_bind {f : Machine γ δ → Exec γ δ β} (hk : f (m.under φ) = f m)
    (hf : Commutes φ (f m : Run γ δ _) m) : Commutes φ (get >>= f : Exec γ δ β) m :=
  Simulates.exec_look hk hf

theorem exec_lift (x : Reported α) : Commutes φ (liftM x : Exec γ δ α) m := plain (lift x)

theorem resolveMulDiv : Commutes φ (resolveMulDiv : Exec γ δ UInt32) m := by
  show Machine.resolveMulDiv (m.under φ) = _
  rw [resolveMulDiv_eq, resolveMulDiv_eq]
  show _ <$> m.cpu.muldiv.resolve (m.under φ).cpu.regs m.cpu.clock.retired = _
  rw [MulDivUnit.resolve_eq, MulDivUnit.resolve_eq]
  cases m.cpu.muldiv.pending with
  | none => rfl
  | some p =>
    dsimp only
    split <;> rfl

/-- Whatever is accessed. -/
theorem closed (φ : Front → Front) :
    ClosedAt (γ := γ) (δ := δ) (fun _ _ => True) fun _ x m => Commutes φ x m where
  ret _ _ := pure _
  seq hx hf := exec_bind hx hf
  fail _ _ := pure _
  look hk hf := exec_get_bind (hk _ _) hf
  report _ _ := exec_lift _
  hit := (Ignores.closed φ id).hit
  writeHi _ _ := plain (modified rfl)
  writeLo _ _ := plain (modified rfl)
  writeCaches := (Ignores.closed φ id).writeCaches
  issue _ _ _ _ := plain (modified rfl)
  resolve _ := resolveMulDiv
  await := (Ignores.closed φ id).await
  pass := (Ignores.closed φ id).pass
  command := (Ignores.closed φ id).command
  writeGte f m hf := of_ignores (.writeGte f (hf m (φ m.front)))
  busRead := (Ignores.closed φ id).busRead
  busWrite := (Ignores.closed φ id).busWrite
  fetchLine := (Ignores.closed φ id).fetchLine

theorem load (vaddr : UInt32) (w : Width) : Commutes φ (load vaddr w : Exec γ δ UInt32) m :=
  (closed φ).beside.load (fun _ _ => trivial) w

theorem obtain (pc : UInt32) : Commutes φ (obtain pc : Exec γ δ UInt32) m :=
  of_ignores (.obtain pc)

theorem performCop0 (o : Operands) (pc : UInt32) (f : Register) :
    Commutes φ (performCop0 o pc f : Exec γ δ Effect) m :=
  of_ignores (.performCop0 o pc f)

theorem perform (o : Operands) (pc : UInt32) (i : Instruction) :
    Commutes φ (perform o pc i : Exec γ δ Effect) m :=
  (closed φ).perform (fun _ _ _ _ => trivial) pc fun f _ => performCop0 o pc f

/-- A computation that commutes with every change of the front leaves it alone. -/
theorem front {x : Run γ δ α} (hx : ∀ φ, Commutes φ x m) : (x m).value.2.front = m.front :=
  congrArg (fun r => r.value.2.front) (hx fun _ => m.front)

theorem front_of_value {x : Exec γ δ α} (hx : ∀ φ, Commutes φ x m) {r : Except Exception α}
    (h : (x m).value = (r, t)) : t.front = m.front := by
  have hfront := front hx
  rw [h] at hfront
  exact hfront

theorem front_of_requireCop {z : Cop} {r : Except Exception Unit} (h : (requireCop z m).value = (r, t)) :
    t.front = m.front :=
  front_of_value (fun φ => (closed φ).beside.requireCop z) h

theorem front_of_formAddress {o : Operands} {f : Immediate} {r : Except Exception UInt32}
    (h : (formAddress o f m).value = (r, t)) : t.front = m.front :=
  front_of_value (fun φ => (closed φ).beside.formAddress o f) h

end Commutes

def finish (d : BranchDelay) (e : Effect) : Exec γ δ Unit := do
  commit e
  decideBranch d

@[simp] theorem finish_none : (finish .none : Effect → Exec γ δ Unit) = commit := by
  funext e
  simp [finish, decideBranch]

@[simp] theorem finish_keep (d : BranchDelay) :
    (finish d .keep : Exec γ δ Unit) = decideBranch d := by
  simp [finish, commit]

@[simp] theorem commit_keep : (commit .keep : Exec γ δ Unit) = pure () := rfl
@[simp] theorem commit_write (r : Reg) (v : UInt32) :
    (commit (.write r v) : Exec γ δ Unit) = setGpr r v := rfl
@[simp] theorem commit_load (r : Reg) (v : UInt32) :
    (commit (.load r v) : Exec γ δ Unit) = scheduleLoad r v := rfl

/-- Nothing depends on the target of a branch that is not taken. -/
@[simp] theorem decideBranch_ofDecision (taken : Bool) (target : UInt32) :
    (decideBranch (.ofDecision taken target) : Exec γ δ Unit) = branch taken target := by
  cases taken <;> rfl

theorem exec_bind_congr {x : Exec γ δ α} {f g : α → Exec γ δ β}
    (h : ∀ a t, (x m).value = (.ok a, t) → f a t = g a t) :
    (x >>= f : Exec γ δ β) m = (x >>= g : Exec γ δ β) m := by
  cases hx : (x m).value with
  | mk r t =>
    cases r with
    | error e => rw [exec_bind_error hx, exec_bind_error hx]
    | ok a => rw [exec_bind_ok hx, exec_bind_ok hx, h a t hx]

theorem exec_bind_left {x y : Exec γ δ α} (h : x m = y m) (f : α → Exec γ δ β) :
    (x >>= f : Exec γ δ β) m = (y >>= f : Exec γ δ β) m := by
  show (x m >>= fun p => ExceptT.bindCont f p.1 p.2) = y m >>= fun p => ExceptT.bindCont f p.1 p.2
  rw [h]

section SameFront
variable (h : t.front = m.front)
include h

theorem gpr_of_front (r : Reg) (f : UInt32 → Exec γ δ β) :
    (gpr r >>= f : Exec γ δ β) t = f (m.cpu.regs.gpr r) t := by
  show f (t.cpu.regs.gpr r) t = _
  rw [gpr_congr (congrArg Front.gprs h)]

theorem pendingGpr_of_front (r : Reg) (f : UInt32 → Exec γ δ β) :
    (pendingGpr r >>= f : Exec γ δ β) t = f (m.operands.pending r) t := by
  show f ((t.cpu.slots.load.valueFor (loadReg r)).getD (t.cpu.regs.gpr r)) t = _
  rw [gpr_congr (congrArg Front.gprs h), show t.cpu.slots.load = m.cpu.slots.load from
    congrArg (·.slots.load) h]
  rfl

theorem effectiveAddress_of_front (f : Immediate) :
    effectiveAddress f.rs f.imm t = formAddress m.operands f t :=
  gpr_of_front h f.rs _

theorem loaded_of_front (op : Load) (r : Reg) (vaddr : UInt32) :
    loaded op r vaddr t = brought op (m.operands.pending r) vaddr t := by
  cases op with
  | lb | lbu | lh | lhu | lw => rfl
  | lwl | lwr =>
    apply exec_bind_congr
    intro word u hu
    exact pendingGpr_of_front ((Commutes.front_of_value (fun _ => Commutes.load _ _) hu).trans h) r _

end SameFront

theorem executeBranch_eq (op : Branch) (f : Immediate) (pc : UInt32) :
    executeBranch op f pc m =
      finish (.ofDecision (op.taken f.rt (m.cpu.regs.gpr f.rs) (m.cpu.regs.gpr f.rt))
          (branchTarget pc f.imm))
        (if op.links f.rt then .write .ra (returnAddr pc) else .keep) m := by
  show (do
    if op.links f.rt then setGpr .ra (returnAddr pc)
    branch (op.taken f.rt (m.cpu.regs.gpr f.rs) (m.cpu.regs.gpr f.rt)) (branchTarget pc f.imm) :
      Exec γ δ Unit) m = _
  split <;> simp [finish]

theorem setResult_eq (r : Reg) (v : Option UInt32) :
    (setResult r v : Exec γ δ Unit) = resultOf r v >>= commit := by
  cases v <;> simp [setResult, resultOf]

theorem loadCop_eq (z : Cop) (f : Immediate) : loadCop z f m = performLoadCop m.operands z f m := by
  apply exec_bind_congr
  intro _ t ht
  have hfront := Commutes.front_of_requireCop ht
  exact exec_bind_left (effectiveAddress_of_front hfront f) _

theorem storeCop_eq (z : Cop) (f : Immediate) :
    storeCop z f m = performStoreCop m.operands z f m := by
  apply exec_bind_congr
  intro _ t ht
  have hfront := Commutes.front_of_requireCop ht
  exact exec_bind_left (effectiveAddress_of_front hfront f) _

theorem executeImmediate_eq (op : ImmediateOp) (f : Immediate) (pc : UInt32) :
    executeImmediate op f pc m = (performImmediate m.operands pc op f >>=
      finish ((Instruction.immediate op f).decision pc m.cpu.regs.gpr)) m := by
  cases op with
  | branch op =>
    simp only [performImmediate, pure_bind]
    exact executeBranch_eq op f pc
  | alu op =>
    simp only [performImmediate, Instruction.decision, finish_none]
    exact congrFun (setResult_eq _ _) m
  | load op =>
    simp only [performImmediate, Instruction.decision, bind_assoc, pure_bind, finish_none,
      commit_load]
    refine (exec_bind_left (effectiveAddress_of_front rfl f) _).trans (exec_bind_congr ?_)
    intro vaddr t ht
    have hfront := Commutes.front_of_formAddress ht
    exact exec_bind_left (loaded_of_front hfront op f.rt vaddr) _
  | store op =>
    simp only [performImmediate, Instruction.decision, bind_assoc, pure_bind, finish_none,
      commit_keep, bind_pure_unit]
    refine (exec_bind_left (effectiveAddress_of_front rfl f) _).trans (exec_bind_congr ?_)
    intro vaddr t ht
    exact gpr_of_front (Commutes.front_of_formAddress ht) f.rt _
  | lwc z =>
    simp only [performImmediate, Instruction.decision, bind_assoc, pure_bind, finish_none,
      commit_keep, bind_pure_unit]
    exact loadCop_eq z f
  | swc z =>
    simp only [performImmediate, Instruction.decision, bind_assoc, pure_bind, finish_none,
      commit_keep, bind_pure_unit]
    exact storeCop_eq z f

theorem executeJump_eq (op : JumpOp) (f : Jump) (pc : UInt32) :
    executeJump op f pc m = (performJump m.operands pc op f >>=
      finish ((Instruction.jump op f).decision pc m.cpu.regs.gpr)) m := by
  cases op with
  | j => rfl
  | jal =>
    simp only [performJump, Instruction.decision, bind_assoc, pure_bind]
    rfl

theorem decision_command {f : Register} (hf : isCommand f) (z : Cop) (pc : UInt32) (gpr : Reg → UInt32) :
    (Instruction.register (.cop z) f).decision pc gpr = .none := by
  simp [Instruction.decision, hf]

theorem decision_move {f : Register} (hf : f.rs.val ≠ 8) (z : Cop) (pc : UInt32) (gpr : Reg → UInt32) :
    (Instruction.register (.cop z) f).decision pc gpr = .none := by
  simp [Instruction.decision, hf]

theorem decision_branch {f : Register} (hf : f.rs.val = 8) (z : Cop) (pc : UInt32) (gpr : Reg → UInt32) :
    (Instruction.register (.cop z) f).decision pc gpr =
      .ofDecision (f.rt.val % 2 == 0) (branchTarget pc f.code.toUInt16) := by
  simp [Instruction.decision, isCommand, hf]

theorem executeCop0_eq (f : Register) (pc : UInt32) :
    executeCop0 f pc m = (performCop0 m.operands pc f >>=
      finish ((Instruction.register (.cop .system) f).decision pc m.cpu.regs.gpr)) m := by
  simp only [performCop0, bind_assoc]
  apply exec_bind_congr
  intro _ t ht
  have hfront := Commutes.front_of_requireCop ht
  have hmove (h : f.rs.val ≠ 8) := decision_move h .system pc m.cpu.regs.gpr
  have hbranch (h : f.rs.val = 8) := decision_branch h .system pc m.cpu.regs.gpr
  split
  · rw [decision_command ‹_›]
    simp
  generalize f.rs.val = n at hmove hbranch
  split
  · rw [hmove (by decide), finish_none]
    simp only [bind_assoc, exec_get_bind_at]
    cases t.cpu.regs.cop0.read? f.rd <;> simp
  · rw [hmove (by decide)]
    simp only [finish_none, bind_assoc, pure_bind, commit_keep, bind_pure_unit]
    show (gpr f.rt >>= fun v => do
      let cop0 ← t.cpu.regs.cop0.write f.rd v
      modifyCop0 fun _ => cop0 : Exec γ δ Unit) t = _
    exact gpr_of_front hfront f.rt _
  · rw [hmove (by decide)]
    simp
  · rw [hmove (by decide)]
    simp
  · rw [hbranch rfl]
    simp [branchOnCondition]
  · rw [hmove ‹_›, finish_none]
    simp_all

theorem executeCop2_eq (f : Register) (pc : UInt32) :
    executeCop2 f pc m = (performCop2 m.operands pc f >>=
      finish ((Instruction.register (.cop .geometry) f).decision pc m.cpu.regs.gpr)) m := by
  simp only [performCop2, bind_assoc]
  apply exec_bind_congr
  intro _ t ht
  have hfront := Commutes.front_of_requireCop ht
  have hmove (h : f.rs.val ≠ 8) := decision_move h .geometry pc m.cpu.regs.gpr
  have hbranch (h : f.rs.val = 8) := decision_branch h .geometry pc m.cpu.regs.gpr
  split
  · rw [decision_command ‹_›]
    simp
  generalize f.rs.val = n at hmove hbranch
  split
  · rw [hmove (by decide)]
    simp
  · rw [hmove (by decide)]
    simp
  · rw [hmove (by decide)]
    simp only [finish_none, bind_assoc, pure_bind, commit_keep, bind_pure_unit]
    exact gpr_of_front hfront f.rt _
  · rw [hmove (by decide)]
    simp only [finish_none, bind_assoc, pure_bind, commit_keep, bind_pure_unit]
    exact gpr_of_front hfront f.rt _
  · rw [hbranch rfl]
    simp [branchOnCondition]
  · rw [hmove ‹_›, finish_none]
    simp_all

/-- A coprocessor that is not there is never usable. -/
theorem requireCop_absent {z : Cop} (hz : present z = false) :
    (requireCop z m).value = (.error (.copUnusable (UInt32.ofNat z)), m) := by
  unfold requireCop
  rw [hz]
  rfl

theorem requireCop_absent_then {z : Cop} (hz : present z = false) (f : Unit → Exec γ δ Unit) :
    requireCop z m = (requireCop z >>= f : Exec γ δ Unit) m := by
  rw [exec_bind_error (requireCop_absent hz)]
  exact Reported.eq_of (requireCop_absent hz) rfl

theorem executeRegister_eq (op : RegisterOp) (f : Register) (pc : UInt32) :
    executeRegister op f pc m = (performRegister m.operands pc op f >>=
      finish ((Instruction.register op f).decision pc m.cpu.regs.gpr)) m := by
  cases op with
  | alu op =>
    simp only [performRegister, Instruction.decision, finish_none]
    exact congrFun (setResult_eq _ _) m
  | shift op =>
    simp only [performRegister, Instruction.decision, finish_none, pure_bind, commit_write]
    exact gpr_of_front rfl f.rt _
  | shiftBy op =>
    simp only [performRegister, Instruction.decision, finish_none, pure_bind, commit_write]
    exact (gpr_of_front rfl f.rt _).trans (gpr_of_front rfl f.rs _)
  | muldiv op =>
    simp only [performRegister, Instruction.decision, finish_none, bind_assoc, pure_bind, commit_keep,
      bind_pure_unit]
    rfl
  | jr | syscall | brk => rfl
  | jalr =>
    simp only [performRegister, Instruction.decision, bind_assoc, pure_bind]
    rfl
  | mfhi | mflo =>
    simp only [performRegister, Instruction.decision, finish_none, bind_assoc, pure_bind, commit_write]
    rfl
  | mthi | mtlo =>
    simp only [performRegister, Instruction.decision, finish_none, bind_assoc, pure_bind, commit_keep,
      bind_pure_unit]
    apply exec_bind_congr
    intro stall t ht
    exact gpr_of_front (Commutes.front_of_value (fun _ => Commutes.resolveMulDiv) ht) f.rs _
  | cop z =>
    match z with
    | 0 => exact executeCop0_eq f pc
    | 2 => exact executeCop2_eq f pc
    | 1 | 3 =>
      simp only [performRegister, bind_assoc]
      exact requireCop_absent_then (by decide) _

/-- An instruction may as well read its operands first and write its results last. -/
theorem execute_eq (i : Instruction) (pc : UInt32) :
    execute i pc m = (perform m.operands pc i >>= finish (i.decision pc m.cpu.regs.gpr)) m := by
  cases i with
  | immediate op f => exact executeImmediate_eq op f pc
  | jump op f => exact executeJump_eq op f pc
  | register op f => exact executeRegister_eq op f pc

/-- After its work an instruction raises no exception. -/
theorem finish_total (d : BranchDelay) (e : Effect) : Total (finish (γ := γ) (δ := δ) d e) := by
  refine .bind ?_ fun _ => ?_
  · cases e with
    | keep => exact .pure ()
    | write r v => exact setGpr_total r v
    | load r v => exact scheduleLoad_total r v
  · cases d with
    | none => exact .pure ()
    | notTaken => exact branch_total false 0
    | pending target => exact branch_total true target

theorem execute_error {i : Instruction} {pc : UInt32} {e : Exception} {u : Machine γ δ}
    (h : (execute i pc m).value = (.error e, u)) :
    (perform m.operands pc i m).value = (.error e, u) := by
  rw [execute_eq] at h
  rcases exec_bind_error_inv h with h | ⟨effect, t, -, h⟩
  · exact h
  · exact absurd h (finish_total _ effect).no_error

theorem execute_ok {i : Instruction} {pc : UInt32} {u : Machine γ δ}
    (h : (execute i pc m).value = (.ok (), u)) :
    ∃ effect t, (perform m.operands pc i m).value = (.ok effect, t) ∧
      u = (finish (i.decision pc m.cpu.regs.gpr) effect t).value.2 := by
  rw [execute_eq] at h
  obtain ⟨effect, t, hp, hf⟩ := exec_bind_inv h
  exact ⟨effect, t, hp, by rw [hf]⟩

end R3000.Machine
