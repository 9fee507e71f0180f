import R3000.Proofs.OperandFrame

/-! # The courses that a step can take

A step is interrupted, or gets no instruction, or passes over a word that encodes none, or faults in
its instruction, or completes it. Whatever its course, it has left the registers and the delay slots as
it found them up to where its instruction has done its work. -/
namespace R3000

theorem RegisterFile.setGpr_frame (f : RegisterFile) (r : Reg) (value : UInt32) :
    f.setGpr r value = { f with gprs := (f.setGpr r value).gprs } := by
  unfold RegisterFile.setGpr
  split <;> rfl

theorem DelaySlots.cancel_frame (s : DelaySlots) (reg : UInt64) :
    s.cancel reg = { s with load := (s.cancel reg).load } := by
  unfold cancel
  split <;> rfl

theorem DelaySlots.land_frame (l : LoadDelay) (f : RegisterFile) :
    (land l f).value = { f with gprs := (land l f).value.gprs } := by
  simp only [land]
  split
  · rfl
  · split
    · exact f.setGpr_frame _ _
    · rfl

namespace Machine
variable {γ δ : Type} {m t u : Machine γ δ}

/-- What a step does before it looks for its instruction. Gives the address of that. -/
def opening : Run γ δ UInt32 := do
  sampleLine
  let pc ← advance
  spend instructionCost
  return pc

def opened (m : Machine γ δ) : Machine γ δ := (opening m).value.2

def completed? (m : Machine γ δ) : Option Instruction :=
  if m.opened.cpu.regs.cop0.interrupted then none
  else
    match (obtain m.cpu.regs.pc m.opened).value with
    | (.error _, _) => none
    | (.ok word, t) =>
      match Instruction.decode word with
      | none => none
      | some i =>
        match (execute i m.cpu.regs.pc t).value.1 with
        | .error _ => none
        | .ok _ => some i

/-- What the next step decides about the flow of control, if it completes a branch. -/
def decision (m : Machine γ δ) : BranchDelay :=
  m.completed?.elim .none fun i => i.decision m.cpu.regs.pc m.cpu.regs.gpr

/-- How the next step goes, up to where it retires: what comes of it, the instruction that it completes,
and the machine by then. -/
inductive Course (m : Machine γ δ) : Attempt → Option Instruction → Machine γ δ → Prop
  | interrupted : m.opened.cpu.regs.cop0.interrupted →
      Course m ⟨m.cpu.regs.pc, false, some .interrupt⟩ none m.opened
  | refused {e : Exception} {t : Machine γ δ} : ¬m.opened.cpu.regs.cop0.interrupted →
      (obtain m.cpu.regs.pc m.opened).value = (.error e, t) →
      Course m ⟨m.cpu.regs.pc, false, some e⟩ none t
  | skipped {word : UInt32} {t : Machine γ δ} :
      ¬m.opened.cpu.regs.cop0.interrupted →
      (obtain m.cpu.regs.pc m.opened).value = (.ok word, t) → Instruction.decode word = none →
      Course m ⟨m.cpu.regs.pc, true, none⟩ none t
  | faulted {word : UInt32} {t u : Machine γ δ} {i : Instruction} {e : Exception} :
      ¬m.opened.cpu.regs.cop0.interrupted →
      (obtain m.cpu.regs.pc m.opened).value = (.ok word, t) → Instruction.decode word = some i →
      (perform m.operands m.cpu.regs.pc i t).value = (.error e, u) →
      Course m ⟨m.cpu.regs.pc, true, some e⟩ none u
  | completed {word : UInt32} {t u : Machine γ δ} {i : Instruction} {effect : Effect} :
      ¬m.opened.cpu.regs.cop0.interrupted →
      (obtain m.cpu.regs.pc m.opened).value = (.ok word, t) → Instruction.decode word = some i →
      (perform m.operands m.cpu.regs.pc i t).value = (.ok effect, u) →
      Course m ⟨m.cpu.regs.pc, true, none⟩ (some i)
        (finish (i.decision m.cpu.regs.pc m.cpu.regs.gpr) effect u).value.2

def attemptWord (word pc : UInt32) : Run γ δ Attempt := do
  match ← (executeWord word pc).run with
  | .ok _ => return ⟨pc, true, none⟩
  | .error e => return ⟨pc, true, some e⟩

theorem attempt_interrupted (h : m.opened.cpu.regs.cop0.interrupted) :
    (attempt m).value = (⟨m.cpu.regs.pc, false, some .interrupt⟩, m.opened) := by
  show ((if m.opened.cpu.regs.cop0.interrupted then _ else _ : Run γ δ Attempt) m.opened).value = _
  rw [if_pos h]
  rfl

theorem attempt_refused (h : ¬m.opened.cpu.regs.cop0.interrupted) {e : Exception}
    (ho : (obtain m.cpu.regs.pc m.opened).value = (.error e, t)) :
    (attempt m).value = (⟨m.cpu.regs.pc, false, some e⟩, t) := by
  show ((if m.opened.cpu.regs.cop0.interrupted then _ else _ : Run γ δ Attempt) m.opened).value = _
  rw [if_neg h]
  exact value_then ho _

theorem attempt_obtained (h : ¬m.opened.cpu.regs.cop0.interrupted) {word : UInt32}
    (ho : (obtain m.cpu.regs.pc m.opened).value = (.ok word, t)) :
    (attempt m).value = (attemptWord word m.cpu.regs.pc t).value := by
  show ((if m.opened.cpu.regs.cop0.interrupted then _ else _ : Run γ δ Attempt) m.opened).value = _
  rw [if_neg h]
  exact value_then ho _

theorem value_executeWord {word : UInt32} {i : Instruction} (hd : Instruction.decode word = some i)
    (pc : UInt32) : (executeWord word pc t).value = (execute i pc t).value := by
  unfold executeWord
  rw [hd]
  rfl

theorem attemptWord_skipped {word pc : UInt32} (hd : Instruction.decode word = none) :
    (attemptWord word pc t).value = (⟨pc, true, none⟩, t) := by
  unfold attemptWord executeWord
  rw [hd]
  rfl

theorem attemptWord_faulted {word pc : UInt32} {i : Instruction} {e : Exception}
    (hd : Instruction.decode word = some i) (hx : (execute i pc t).value = (.error e, u)) :
    (attemptWord word pc t).value = (⟨pc, true, some e⟩, u) :=
  value_then (x := (executeWord word pc).run) ((value_executeWord hd pc).trans hx) _

theorem attemptWord_completed {word pc : UInt32} {i : Instruction}
    (hd : Instruction.decode word = some i) (hx : (execute i pc t).value = (.ok (), u)) :
    (attemptWord word pc t).value = (⟨pc, true, none⟩, u) :=
  value_then (x := (executeWord word pc).run) ((value_executeWord hd pc).trans hx) _

theorem front_obtained {r : Except Exception UInt32} (h : (obtain m.cpu.regs.pc m.opened).value = (r, t)) :
    t.front = m.opened.front :=
  Commutes.front_of_value (fun _ => Commutes.obtain _) h

theorem front_performed {o : Operands} {pc : UInt32} {i : Instruction} {r : Except Exception Effect}
    (h : (perform o pc i t).value = (r, u)) : u.front = t.front :=
  Commutes.front_of_value (fun _ => Commutes.perform o pc i) h

theorem gpr_of_opened (h : t.front = m.opened.front) : t.cpu.regs.gpr = m.cpu.regs.gpr :=
  funext fun r => gpr_congr (congrArg Front.gprs h) r

theorem operands_of_opened (h : t.front = m.opened.front) : t.operands = m.operands := by
  have hload : t.cpu.slots.load = m.cpu.slots.load := congrArg (·.slots.load) h
  simp only [operands]
  rw [gpr_of_opened h, hload]

theorem course (m : Machine γ δ) :
    Course m (attempt m).value.1 m.completed? (attempt m).value.2 := by
  unfold completed?
  by_cases hi : m.opened.cpu.regs.cop0.interrupted
  · rw [attempt_interrupted hi, if_pos hi]
    exact .interrupted hi
  rw [if_neg hi]
  cases ho : (obtain m.cpu.regs.pc m.opened).value with
  | mk r t =>
    cases r with
    | error e =>
      rw [attempt_refused hi ho]
      exact .refused hi ho
    | ok word =>
      have hfront := front_obtained ho
      rw [attempt_obtained hi ho]
      dsimp only
      cases hd : Instruction.decode word with
      | none =>
        rw [attemptWord_skipped hd]
        exact .skipped hi ho hd
      | some i =>
        dsimp only
        cases hx : (execute i m.cpu.regs.pc t).value with
        | mk r u =>
          cases r with
          | error e =>
            have hp := execute_error hx
            rw [operands_of_opened hfront] at hp
            rw [attemptWord_faulted hd hx]
            exact .faulted hi ho hd hp
          | ok a =>
            obtain ⟨effect, v, hp, rfl⟩ := execute_ok hx
            rw [operands_of_opened hfront] at hp
            rw [attemptWord_completed hd hx, gpr_of_opened hfront]
            exact .completed hi ho hd hp

def Undisturbed (m : Machine γ δ) : Prop := (attempt m).value.1.exception = none

theorem step_value (m : Machine γ δ) :
    (step m).value.2 = (conclude (attempt m).value.1 (attempt m).value.2).value.2 := by
  rw [step_eq]
  rfl

theorem conclude_undisturbed (pc : UInt32) (executed : Bool) (t : Machine γ δ) :
    (conclude ⟨pc, executed, none⟩ t).value.2.cpu.regs.pc = t.cpu.regs.pc ∧
      (conclude ⟨pc, executed, none⟩ t).value.2.cpu.slots.branch = t.cpu.slots.branch := by
  cases executed <;> exact ⟨congrArg (·.pc) (DelaySlots.land_frame _ _), rfl⟩

theorem conclude_raised (pc : UInt32) (executed : Bool) (e : Exception) (t : Machine γ δ) :
    (conclude ⟨pc, executed, some e⟩ t).value.2.cpu.slots.branch = .none := by
  cases executed <;> rfl

@[simp] theorem branch_cancel (s : DelaySlots) (reg : UInt64) : (s.cancel reg).branch = s.branch :=
  congrArg (·.branch) (s.cancel_frame reg)

@[simp] theorem branch_schedule (s : DelaySlots) (reg : UInt64) (value : UInt32) :
    (s.schedule reg value).branch = s.branch := by
  unfold DelaySlots.schedule
  split
  · rfl
  · exact branch_cancel s reg

theorem commit_frame (e : Effect) (t : Machine γ δ) :
    (commit e t).value.2.cpu.regs.pc = t.cpu.regs.pc ∧
      (commit e t).value.2.cpu.slots.branch = t.cpu.slots.branch := by
  cases e with
  | keep => exact ⟨rfl, rfl⟩
  | write r v => exact ⟨RegisterFile.pc_setGpr _ r v, branch_cancel _ _⟩
  | load r v => exact ⟨rfl, branch_schedule _ _ v⟩

theorem finish_value (d : BranchDelay) (e : Effect) (t : Machine γ δ) :
    (finish d e t).value.2 = (decideBranch d (commit e t).value.2).value.2 := by
  have hcommit : (commit e t).value = (.ok (), (commit e t).value.2) := by cases e <;> rfl
  simp only [finish]
  rw [exec_bind_ok hcommit]

/-- A decision is left for the next step to find. -/
theorem finish_frame (d : BranchDelay) (e : Effect) (h : t.cpu.slots.branch = .none) :
    (finish d e t).value.2.cpu.regs.pc = t.cpu.regs.pc ∧
      (finish d e t).value.2.cpu.slots.branch = d := by
  obtain ⟨hpc, hbranch⟩ := commit_frame e t
  rw [finish_value]
  cases d with
  | none => exact ⟨hpc, hbranch.trans h⟩
  | notTaken | pending target => exact ⟨hpc, rfl⟩

/-- Up to where a step retires it has moved on to the next address, and decided its branch. -/
theorem Course.frame {a : Attempt} {c : Option Instruction} (h : Course m a c t) :
    t.cpu.regs.pc = m.opened.cpu.regs.pc ∧
      t.cpu.slots.branch = c.elim .none fun i => i.decision m.cpu.regs.pc m.cpu.regs.gpr := by
  have hkeep : ∀ {t : Machine γ δ}, t.front = m.opened.front →
      t.cpu.regs.pc = m.opened.cpu.regs.pc ∧ t.cpu.slots.branch = .none := fun ht =>
    ⟨congrArg Front.pc ht, congrArg (·.slots.branch) ht⟩
  cases h with
  | interrupted => exact hkeep rfl
  | refused _ ho => exact hkeep (front_obtained ho)
  | skipped _ ho => exact hkeep (front_obtained ho)
  | faulted _ ho hd hp => exact hkeep ((front_performed hp).trans (front_obtained ho))
  | @completed _ _ u i effect _ ho hd hp =>
    obtain ⟨hpc, hbranch⟩ := hkeep ((front_performed hp).trans (front_obtained ho))
    obtain ⟨hpc', hbranch'⟩ := finish_frame (i.decision m.cpu.regs.pc m.cpu.regs.gpr) effect hbranch
    exact ⟨hpc'.trans hpc, hbranch'⟩

/-- An undisturbed step goes on where the decision before it leads, or else at the next word. -/
theorem Undisturbed.pc (h : m.Undisturbed) :
    (step m).value.2.cpu.regs.pc = m.cpu.slots.branch.target?.getD (m.cpu.regs.pc + 4) := by
  have hframe := m.course.frame
  simp only [Undisturbed] at h
  rw [step_value]
  generalize (attempt m).value.1 = a at *
  obtain ⟨pc, executed, exception⟩ := a
  subst h
  exact (conclude_undisturbed pc executed _).1.trans hframe.1

/-- The decision of a step is what the next one finds. -/
theorem branch_step (m : Machine γ δ) : (step m).value.2.cpu.slots.branch = m.decision := by
  have hcourse := m.course
  have hframe := hcourse.frame
  unfold decision
  rw [step_value]
  generalize (attempt m).value = p at *
  generalize m.completed? = c at *
  obtain ⟨⟨pc, executed, exception⟩, t⟩ := p
  cases exception with
  | none => exact (conclude_undisturbed pc executed t).2.trans hframe.2
  | some e =>
    rw [conclude_raised]
    cases hcourse <;> rfl

/-- Machines one step after the other. Between two steps the devices get their time, and a host may do
what leaves the processor alone. -/
def Successive (s : Nat → Machine γ δ) : Prop := ∀ k, (s (k + 1)).cpu = (step (s k)).value.2.cpu

def after (m : Machine γ δ) : Nat → Machine γ δ
  | 0 => m
  | k + 1 => (next (m.after k)).value.2

/-- The devices' time leaves the processor alone. -/
theorem cpu_next (m : Machine γ δ) : (next m).value.2.cpu = (step m).value.2.cpu := rfl

theorem successive_after (m : Machine γ δ) : Successive m.after := fun k =>
  cpu_next (m.after k)

def decidedBefore (s : Nat → Machine γ δ) : Nat → BranchDelay
  | 0 => .none
  | k + 1 => (s k).decision

variable {s : Nat → Machine γ δ}

theorem Successive.branch (hs : Successive s) (h : (s 0).cpu.slots.branch = .none) (k : Nat) :
    (s k).cpu.slots.branch = decidedBefore s k := by
  cases k with
  | zero => exact h
  | succ k => rw [hs k, branch_step, decidedBefore]

end Machine
end R3000
