import R3000.Proofs.StepCourse

/-! # Load delay

A step works on the registers and on the load on its way as it finds them. Afterwards that load has
landed, unless its register has been written or has been given another load, and the load that the step
has issued, if any, is on its way. -/
namespace R3000

theorem loadReg_inj {r q : Reg} : Machine.loadReg r = Machine.loadReg q ↔ r = q := by
  have hlt : ∀ r : Reg, (Machine.loadReg r).toNat = r.val := fun r =>
    Nat.mod_eq_of_lt (Nat.lt_trans r.isLt (by decide))
  rw [← UInt64.toNat_inj, hlt, hlt, Fin.ext_iff]

theorem loadReg_eq_zero {r : Reg} : Machine.loadReg r = 0 ↔ r = .zero := loadReg_inj (q := .zero)

namespace DelaySlots

/-- A load is on its way to a register after it has been cancelled for another one. -/
theorem valueFor_cancel (s : DelaySlots) (r q : Reg) :
    (s.cancel (Machine.loadReg r)).load.valueFor (Machine.loadReg q) =
      if q = r then none else s.load.valueFor (Machine.loadReg q) := by
  obtain ⟨load, nextLoad, branch, inSlot, taken⟩ := s
  unfold cancel
  cases load with
  | none => simp [LoadDelay.valueFor]
  | pending reg value =>
    by_cases hr : reg = Machine.loadReg r
    · subst hr
      by_cases hq : q = r
      · simp [LoadDelay.valueFor, hq]
      · simp [LoadDelay.valueFor, hq, loadReg_inj, Ne.symm hq]
    · by_cases hq : q = r
      · subst hq
        simp [LoadDelay.valueFor, hr]
      · simp [LoadDelay.valueFor, hr, hq]

theorem valueFor_zero {l : LoadDelay} (h : l.WellFormed) : l.valueFor (Machine.loadReg 0) = none := by
  cases l with
  | none => rfl
  | pending reg value =>
    have hreg : reg ≠ 0 := fun h0 => by
      have hpos := (h reg value rfl).1
      rw [h0] at hpos
      cases hpos
    exact if_neg hreg

end DelaySlots

namespace Effect
variable {s : DelaySlots} {f : RegisterFile}

def slots (e : Effect) (s : DelaySlots) : DelaySlots :=
  match e with
  | .keep => s
  | .write r _ => s.cancel (Machine.loadReg r)
  | .load r value => s.schedule (Machine.loadReg r) value

def regs (e : Effect) (f : RegisterFile) : RegisterFile :=
  match e with
  | .write r value => f.setGpr r value
  | _ => f

theorem wellFormed_slots (e : Effect) (h : s.WellFormed) : (e.slots s).WellFormed := by
  cases e with
  | keep => exact h
  | write r value => exact DelaySlots.wellFormed_cancel h _
  | load r value => exact DelaySlots.wellFormed_schedule h r value

/-- What a register holds after the load that is left on its way has landed. -/
theorem landed_slots (e : Effect) (h : s.WellFormed) (r : Reg) :
    ((e.slots s).load.valueFor (Machine.loadReg r)).getD ((e.regs f).gpr r) =
      e.landed ⟨f.gpr, s.load⟩ r := by
  have hzero := DelaySlots.valueFor_zero h.load
  cases e with
  | keep => rfl
  | write q value =>
    simp only [slots, regs, landed, Operands.pending, DelaySlots.valueFor_cancel,
      RegisterFile.gpr_setGpr]
    by_cases hr : r = q
    · subst hr
      by_cases h0 : r = 0
      · subst h0
        simp [hzero]
      · simp [h0]
    · simp [hr]
  | load q value =>
    simp only [slots, regs, landed, Operands.pending, DelaySlots.schedule, loadReg_eq_zero]
    by_cases h0 : q = 0
    · subst h0
      by_cases hr : r = 0
      · subst hr
        simp [hzero]
      · simp [hr]
    · rw [if_neg h0]
      simp only [DelaySlots.valueFor_cancel]
      by_cases hr : r = q <;> simp [hr]

theorem nextLoad_slots (e : Effect) (h : s.nextLoad = .none) : (e.slots s).nextLoad = e.issued := by
  have hcancel : ∀ reg, (s.cancel reg).nextLoad = s.nextLoad := fun reg =>
    congrArg (·.nextLoad) (s.cancel_frame reg)
  cases e with
  | keep => exact h
  | write r value => exact (hcancel _).trans h
  | load r value =>
    simp only [slots, issued, DelaySlots.schedule, loadReg_eq_zero]
    split
    · exact h
    · rfl

theorem slots_frame (e : Effect) (s : DelaySlots) :
    e.slots s = { s with load := (e.slots s).load, nextLoad := (e.slots s).nextLoad } := by
  cases e with
  | keep => rfl
  | write r value =>
    simp only [slots]
    rw [s.cancel_frame]
  | load r value =>
    simp only [slots, DelaySlots.schedule]
    split
    · rfl
    · rw [s.cancel_frame]

theorem slots_branch (e : Effect) (s : DelaySlots) (branch : BranchDelay) :
    e.slots { s with branch } = { e.slots s with branch } := by
  have hcancel : ∀ reg, DelaySlots.cancel { s with branch } reg = { s.cancel reg with branch } := by
    intro reg
    unfold DelaySlots.cancel
    dsimp only
    split <;> rfl
  cases e with
  | keep => rfl
  | write r value => exact hcancel _
  | load r value =>
    simp only [slots, DelaySlots.schedule]
    split
    · rfl
    · rw [hcancel]

theorem regs_frame (e : Effect) (f : RegisterFile) : e.regs f = { f with gprs := (e.regs f).gprs } := by
  cases e with
  | keep | load => rfl
  | write r value => exact f.setGpr_frame r value

end Effect

theorem Cop.eq_cases (z : Cop) : z = 0 ∨ z = 1 ∨ z = 2 ∨ z = 3 := by
  revert z
  decide

/-- Without a merge it makes no difference which load is on its way. -/
theorem Machine.perform_congr {γ δ : Type} {o o' : Operands} (hgpr : o.gpr = o'.gpr)
    {i : Instruction} (hload : ∀ r, i.merged? = some r → o.pending r = o'.pending r) (pc : UInt32) :
    (perform o pc i : Exec γ δ Effect) = perform o' pc i := by
  obtain ⟨gpr, load⟩ := o
  obtain ⟨gpr', load'⟩ := o'
  cases hgpr
  cases i with
  | immediate op f =>
    cases op with
    | load op =>
      cases op with
      | lwl | lwr =>
        simp only [perform, performImmediate]
        rw [hload f.rt rfl]
        rfl
      | _ => rfl
    | _ => rfl
  | jump op f => cases op <;> rfl
  | register op f =>
    cases op with
    | cop z => rcases z.eq_cases with rfl | rfl | rfl | rfl <;> rfl
    | _ => rfl

namespace Machine
variable {γ δ : Type} {m t u : Machine γ δ}

def withLoads (gprs : Vector UInt32 31) (load nextLoad : LoadDelay) (k : Front) : Front :=
  { k with gprs, slots := { k.slots with load, nextLoad } }

/-- Two machines are the same but for the registers and the loads on their way. -/
def SameRest (t u : Machine γ δ) : Prop :=
  u = t.under (withLoads u.cpu.regs.gprs u.cpu.slots.load u.cpu.slots.nextLoad)

theorem commit_value (e : Effect) (t : Machine γ δ) :
    (commit e t).value =
      (.ok (), { t with cpu := { t.cpu with slots := e.slots t.cpu.slots, regs := e.regs t.cpu.regs } }) := by
  cases e <;> rfl

/-- Lets an effect take place and retires. -/
def settle (e : Effect) : Run γ δ Unit := do
  let _ ← (commit e).run
  retire

theorem settle_value (e : Effect) (t : Machine γ δ) :
    (settle e t).value.2 =
      { t with
        cpu := { t.cpu with
          slots := (e.slots t.cpu.slots).advance
          regs := (DelaySlots.land (e.slots t.cpu.slots).load (e.regs t.cpu.regs)).value } } := by
  cases e <;> rfl

theorem settle_rest (e : Effect) (t : Machine γ δ) : SameRest t (settle e t).value.2 := by
  rw [SameRest, settle_value, DelaySlots.land_frame, Effect.regs_frame, Effect.slots_frame]
  rfl

theorem settle_gpr (e : Effect) (h : t.cpu.slots.WellFormed) (r : Reg) :
    (settle e t).value.2.cpu.regs.gpr r = e.landed t.operands r := by
  show (DelaySlots.land (commit e t).value.2.cpu.slots.load (commit e t).value.2.cpu.regs).value.gpr r = _
  rw [commit_value, gpr_land (e.wellFormed_slots h).load]
  exact e.landed_slots h r

theorem settle_load (e : Effect) (h : t.cpu.slots.nextLoad = .none) :
    (settle e t).value.2.cpu.slots.load = e.issued := by
  show (commit e t).value.2.cpu.slots.nextLoad = _
  rw [commit_value]
  exact e.nextLoad_slots h

def workInstruction (o : Operands) (i : Instruction) (pc : UInt32) : Run γ δ (Attempt × Effect) := do
  match ← (perform o pc i).run with
  | .error e => return (⟨pc, true, some e⟩, .keep)
  | .ok effect =>
    let _ ← (decideBranch (i.decision pc o.gpr)).run
    return (⟨pc, true, none⟩, effect)

def workWord (o : Operands) (word pc : UInt32) : Run γ δ (Attempt × Effect) := do
  match Instruction.decode word with
  | none =>
    note (.malformed word pc)
    return (⟨pc, true, none⟩, .keep)
  | some i =>
    note (.executing pc i)
    workInstruction o i pc

def work (o : Operands) : Run γ δ (Attempt × Effect) := do
  let pc ← opening
  let cop0 := (← get).cpu.regs.cop0
  if cop0.interrupted then
    note (.interrupt pc cop0.cause.ip)
    return (⟨pc, false, some .interrupt⟩, .keep)
  else
    match ← (obtain pc).run with
    | .error e => return (⟨pc, false, some e⟩, .keep)
    | .ok word => workWord o word pc

/-- What a step does after it has retired. -/
def closing (a : Attempt) : Run γ δ Unit := do
  if a.executed then
    let clock := (← get).cpu.clock
    setClock { clock with retired := ← count clock.retired 1 }
  match a.exception with
  | none => return ()
  | some e => enterException e a.pc

/-- A step on given operands, which neither reads nor writes the registers and the loads on their way.
Gives what the step does to them. -/
def stepOn (o : Operands) : Run γ δ Effect := do
  let (a, effect) ← work o
  closing a
  return effect

section Blind
variable (gprs : Vector UInt32 31) (load nextLoad : LoadDelay)

theorem closing_blind (a : Attempt) :
    Commutes (withLoads gprs load nextLoad) (closing (γ := γ) (δ := δ) a) m := by
  have hend : ∀ t : Machine γ δ, Commutes (withLoads gprs load nextLoad) (match a.exception with
      | none => pure ()
      | some e => enterException e a.pc) t := fun t => by
    cases a.exception with
    | none => exact .pure ()
    | some e => exact .get_bind rfl (.bind (.lift _) fun _ _ _ => .modified rfl)
  simp only [closing]
  split
  · exact .get_bind rfl (.bind (.lift _) fun _ _ _ => .bind (.setClock _) fun _ t _ => hend t)
  · exact hend m

theorem decideBranch_blind (d : BranchDelay) :
    Commutes (withLoads gprs load nextLoad) (decideBranch (γ := γ) (δ := δ) d) m := by
  cases d with
  | none => exact .pure _
  | notTaken => exact .plain (.modified rfl)
  | pending target => exact .exec_bind (.exec_lift _) fun _ _ _ => .plain (.modified rfl)

theorem workWord_blind (o : Operands) (word pc : UInt32) :
    Commutes (withLoads gprs load nextLoad) (workWord (γ := γ) (δ := δ) o word pc) m := by
  simp only [workWord]
  split
  · exact .bind (.lift _) fun _ _ _ => .pure _
  · refine .bind (.lift _) fun _ _ _ => .bind (.perform o pc _) fun r t _ => ?_
    cases r with
    | error e => exact .pure _
    | ok effect => exact .bind (decideBranch_blind gprs load nextLoad _) fun _ _ _ => .pure _

theorem opening_blind : Commutes (withLoads gprs load nextLoad) (opening (γ := γ) (δ := δ)) m := by
  refine .bind (.modified rfl) fun _ _ _ => .bind ?_ fun pc _ _ => .bind (.spend _) fun _ _ _ => .pure _
  exact .get_bind rfl (.bind (.modified rfl) fun _ _ _ => .pure _)

/-- A step on given operands does the same whatever the registers hold. -/
theorem stepOn_blind (o : Operands) :
    Commutes (withLoads gprs load nextLoad) (stepOn (γ := γ) (δ := δ) o) m := by
  refine .bind (.bind (opening_blind gprs load nextLoad) fun pc t _ => .get_bind rfl ?_) fun p t _ =>
    .bind (closing_blind gprs load nextLoad p.1) fun _ _ _ => .pure _
  dsimp only
  split
  · exact .bind (.lift _) fun _ _ _ => .pure _
  · refine .bind (.obtain pc) fun r _ _ => ?_
    cases r with
    | error e => exact .pure _
    | ok word => exact workWord_blind gprs load nextLoad o word pc

end Blind

def effect (m : Machine γ δ) : Effect := (stepOn m.operands m).value.1

/-- It makes no difference whether a branch is decided before the effect or after. -/
theorem finish_comm (d : BranchDelay) (e : Effect) (t : Machine γ δ) :
    (finish d e t).value.2 = (commit e (decideBranch d t).value.2).value.2 := by
  have hdecide : ∀ branch, e.slots { t.cpu.slots with branch } = { e.slots t.cpu.slots with branch } :=
    e.slots_branch t.cpu.slots
  rw [finish_value, commit_value, commit_value]
  cases d with
  | none => rfl
  | notTaken | pending target =>
    exact congrArg (fun slots => { t with cpu := { t.cpu with slots, regs := e.regs t.cpu.regs } })
      (hdecide _).symm

theorem decideBranch_operands (d : BranchDelay) (t : Machine γ δ) :
    (decideBranch d t).value.2.operands = t.operands ∧
      (decideBranch d t).value.2.cpu.slots.nextLoad = t.cpu.slots.nextLoad := by
  cases d <;> exact ⟨rfl, rfl⟩

section Work
variable (h : ¬m.opened.cpu.regs.cop0.interrupted)
include h

theorem work_refused {e : Exception} (ho : (obtain m.cpu.regs.pc m.opened).value = (.error e, t))
    (o : Operands) : (work o m).value = ((⟨m.cpu.regs.pc, false, some e⟩, .keep), t) := by
  show ((if m.opened.cpu.regs.cop0.interrupted then _ else _ : Run γ δ (Attempt × Effect))
    m.opened).value = _
  rw [if_neg h]
  exact value_then ho _

theorem work_obtained {word : UInt32}
    (ho : (obtain m.cpu.regs.pc m.opened).value = (.ok word, t)) (o : Operands) :
    (work o m).value = (workWord o word m.cpu.regs.pc t).value := by
  show ((if m.opened.cpu.regs.cop0.interrupted then _ else _ : Run γ δ (Attempt × Effect))
    m.opened).value = _
  rw [if_neg h]
  exact value_then ho _

theorem work_skipped {word : UInt32} (ho : (obtain m.cpu.regs.pc m.opened).value = (.ok word, t))
    (hd : Instruction.decode word = none) (o : Operands) :
    (work o m).value = ((⟨m.cpu.regs.pc, true, none⟩, .keep), t) := by
  rw [work_obtained h ho]
  unfold workWord
  rw [hd]
  rfl

theorem work_decoded {word : UInt32} {i : Instruction}
    (ho : (obtain m.cpu.regs.pc m.opened).value = (.ok word, t))
    (hd : Instruction.decode word = some i) (o : Operands) :
    (work o m).value = (workInstruction o i m.cpu.regs.pc t).value := by
  rw [work_obtained h ho]
  unfold workWord
  rw [hd]
  rfl

end Work

/-- The work of a step goes as the step does, but that the effect is yet to come. -/
theorem Course.work {a : Attempt} {c : Option Instruction} (h : Course m a c t) :
    ∃ e u, (work m.operands m).value = ((a, e), u) ∧ t = (commit e u).value.2 ∧
      u.operands = m.operands ∧ u.cpu.slots.nextLoad = m.cpu.slots.nextLoad ∧
      (a.exception ≠ none → e = .keep) := by
  have hnext : ∀ {t : Machine γ δ}, t.front = m.opened.front →
      t.cpu.slots.nextLoad = m.cpu.slots.nextLoad := fun ht => congrArg (·.slots.nextLoad) ht
  cases h with
  | interrupted hi =>
    refine ⟨.keep, m.opened, ?_, rfl, rfl, rfl, fun _ => rfl⟩
    show ((if m.opened.cpu.regs.cop0.interrupted then _ else _ : Run γ δ (Attempt × Effect))
      m.opened).value = _
    rw [if_pos hi]
    rfl
  | refused hi ho =>
    have hfront := front_obtained ho
    exact ⟨.keep, t, work_refused hi ho _, rfl, operands_of_opened hfront, hnext hfront, fun _ => rfl⟩
  | skipped hi ho hd =>
    have hfront := front_obtained ho
    exact ⟨.keep, t, work_skipped hi ho hd _, rfl, operands_of_opened hfront, hnext hfront, fun _ => rfl⟩
  | faulted hi ho hd hp =>
    have hfront := (front_performed hp).trans (front_obtained ho)
    refine ⟨.keep, t, ?_, rfl, operands_of_opened hfront, hnext hfront, fun _ => rfl⟩
    rw [work_decoded hi ho hd]
    exact value_then (x := (perform _ _ _).run) hp _
  | @completed _ v u i e hi ho hd hp =>
    have hfront := (front_performed hp).trans (front_obtained ho)
    obtain ⟨hoperands, hload⟩ := decideBranch_operands (i.decision m.cpu.regs.pc m.cpu.regs.gpr) u
    refine ⟨e, _, ?_, finish_comm _ _ _, hoperands.trans (operands_of_opened hfront),
      hload.trans (hnext hfront), fun hx => absurd rfl hx⟩
    rw [work_decoded hi ho hd]
    exact value_then (x := (perform _ _ _).run) hp _

/-- A step lets its effect take place, and does the rest on the operands that it finds. -/
theorem step_settled (m : Machine γ δ) : ∃ a e u, (work m.operands m).value = ((a, e), u) ∧
    u.operands = m.operands ∧ u.cpu.slots.nextLoad = m.cpu.slots.nextLoad ∧
    (step m).value.2 = (closing a (settle e u).value.2).value.2 ∧ (¬m.Undisturbed → e = .keep) := by
  obtain ⟨e, u, hwork, ht, hoperands, hnext, hkeep⟩ := m.course.work
  refine ⟨_, e, u, hwork, hoperands, hnext, ?_, hkeep⟩
  rw [step_value, ht]
  rfl

theorem closing_front (a : Attempt) (t : Machine γ δ) :
    (closing a t).value.2.cpu.regs.gprs = t.cpu.regs.gprs ∧
      (closing a t).value.2.cpu.slots.load = t.cpu.slots.load ∧
      (closing a t).value.2.cpu.slots.nextLoad = t.cpu.slots.nextLoad := by
  obtain ⟨pc, executed, exception⟩ := a
  cases executed <;> cases exception <;> exact ⟨rfl, rfl, rfl⟩

theorem SameRest.closing (h : SameRest t u) (a : Attempt) :
    SameRest (closing a t).value.2 (closing a u).value.2 := by
  obtain ⟨hgprs, hload, hnext⟩ := closing_front a u
  have hblind := congrArg (fun r => r.value.2)
    (closing_blind (m := t) u.cpu.regs.gprs u.cpu.slots.load u.cpu.slots.nextLoad a)
  unfold SameRest at h ⊢
  rw [hgprs, hload, hnext]
  exact (congrArg (fun v => (Machine.closing a v).value.2) h).trans hblind

/-- The next step treats the registers and the loads on their way as the load delay has it. It works on
the operands that it finds at its start, and looks at the load on its way only to merge with it. -/
structure DelaysLoads (m : Machine γ δ) : Prop where
  empty : m.cpu.slots.nextLoad = .none
  gpr : ∀ r, (next m).value.2.cpu.regs.gpr r = m.effect.landed m.operands r
  load : (next m).value.2.cpu.slots.load = m.effect.issued
  nextLoad : (next m).value.2.cpu.slots.nextLoad = .none
  /-- An exception leaves no effect. -/
  disturbed : ¬m.Undisturbed → m.effect = .keep
  rest : SameRest (stepOn m.operands m).value.2 (step m).value.2
  blind : ∀ o gprs load nextLoad, stepOn o (m.under (withLoads gprs load nextLoad)) =
    (fun p => (p.1, p.2.under (withLoads gprs load nextLoad))) <$> stepOn o m
  merge : ∀ (i : Instruction) (o : Operands), o.gpr = m.operands.gpr →
    (∀ r, i.merged? = some r → o.pending r = m.operands.pending r) →
    ∀ pc, (perform o pc i : Exec γ δ Effect) = perform m.operands pc i

theorem Reachable.delaysLoads (h : m.Reachable) : m.DelaysLoads := by
  obtain ⟨a, e, u, hwork, hoperands, hnext, hstep, hkeep⟩ := step_settled m
  have hon : (stepOn m.operands m).value = (e, (closing a u).value.2) :=
    value_then (x := work m.operands) hwork _
  have heffect : m.effect = e := congrArg Prod.fst hon
  have hload : u.cpu.slots.load = m.cpu.slots.load := congrArg Operands.load hoperands
  have hnone := hnext.trans h.nextLoad_none
  have hslots : u.cpu.slots.WellFormed := ⟨hload ▸ h.wellFormed.slots.load, hnone ▸ nofun⟩
  have hcpu : (Machine.next m).value.2.cpu = (closing a (settle e u).value.2).value.2.cpu :=
    (cpu_next m).trans (congrArg Machine.cpu hstep)
  obtain ⟨hgprs, hsent, hempty⟩ := closing_front a (settle e u).value.2
  rw [← hcpu] at hgprs hsent hempty
  refine ⟨h.nextLoad_none, fun r => ?_, ?_, hempty, heffect ▸ hkeep, ?_, fun o _ _ _ => ?_, ?_⟩
  · rw [gpr_congr hgprs, settle_gpr e hslots, hoperands, heffect]
  · rw [hsent, settle_load e hnone, heffect]
  · rw [hon, hstep]
    exact (settle_rest e u).closing a
  · exact stepOn_blind _ _ _ o
  · intro i o hgpr hmerge pc
    exact perform_congr hgpr hmerge pc

/-- A load is on its way, and the next one merges with it. -/
def merging : Machine Gte.Registers Unit :=
  (booting [0x3c08bfc0, 0x8d090000, 0x89090000] (by decide)).steps 2

set_option maxRecDepth 10000 in
theorem delaysLoads_merging : merging.Reachable ∧
    merging.cpu.slots.load = .pending 9 0x3c08bfc0 ∧ (next merging).value.2.cpu.regs.gpr 9 = 0 ∧
    (next merging).value.2.cpu.slots.load = .pending 9 0xc008bfc0 := by
  have hreach : merging.Reachable := (reachable_booting _ _).steps 2
  have h := hreach.delaysLoads
  refine ⟨hreach, by decide +kernel, (h.gpr 9).trans ?_, h.load.trans ?_⟩
  · decide +kernel
  · decide +kernel

end Machine
end R3000
