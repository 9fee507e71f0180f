import R3000.Proofs.StepCourse

/-! # Branch delay

The flow of control changes one instruction late: the instruction after a branch is executed before the
one at its target, whatever it is itself. -/
namespace R3000

def Instruction.branches : Instruction → Bool
  | .immediate (.branch _) _ | .jump _ _ | .register .jr _ | .register .jalr _ => true
  | .register (.cop _) f => !Machine.isCommand f && f.rs.val == 8
  | _ => false

theorem BranchDelay.ofDecision_ne_none (taken : Bool) (target : UInt32) :
    BranchDelay.ofDecision taken target ≠ .none := by
  cases taken <;> simp [ofDecision]

/-- Branches and jumps, and no other instructions, decide about the flow of control. -/
theorem Instruction.decision_ne_none (i : Instruction) (pc : UInt32) (gpr : Reg → UInt32) :
    i.decision pc gpr ≠ .none ↔ i.branches := by
  cases i with
  | immediate op f =>
    cases op with
    | branch op => simp [decision, branches, BranchDelay.ofDecision_ne_none]
    | _ => simp [decision, branches]
  | jump op f => simp [decision, branches]
  | register op f =>
    cases op with
    | jr | jalr => simp [decision, branches]
    | cop z =>
      simp only [decision, branches]
      split
      · simp_all [BranchDelay.ofDecision_ne_none]
      · simp_all
    | _ => simp [decision, branches]

namespace Machine
variable {γ δ : Type} {s : Nat → Machine γ δ}

/-- A branch in the delay slot of another. -/
def hopping : Machine Gte.Registers Unit := booting [0x10000003, 0x10000003, 0, 0, 0] (by decide)

end Machine
end R3000
