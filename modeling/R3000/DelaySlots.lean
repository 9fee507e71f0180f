import R3000.RegisterFile

/-! # Delay slots

Of the pipeline only its two visible hazards are kept: the result of a load reaches the register
file one instruction late, and the instruction after a branch or jump is always executed. -/
namespace R3000

/-- A load whose result is not visible yet. -/
inductive LoadDelay | none | pending (reg : UInt64) (value : UInt32) deriving DecidableEq

/-- What the instruction before did to the flow of control. -/
inductive BranchDelay
  | none
  /-- A branch was not taken; its delay slot follows all the same. -/
  | notTaken
  /-- After the delay slot, execution goes on at the target. -/
  | pending (target : UInt32)
deriving DecidableEq

structure DelaySlots where
  /-- The load that lands when the current instruction retires. -/
  load : LoadDelay := .none
  /-- The load that the current instruction issued. -/
  nextLoad : LoadDelay := .none
  branch : BranchDelay := .none
  /-- The current instruction sits in a delay slot. -/
  inSlot : Bool := false
  /-- The branch that owns the slot was taken. -/
  taken : Bool := false
deriving DecidableEq

namespace LoadDelay

/-- The value on its way to `reg`, if there is one. -/
def valueFor (l : LoadDelay) (reg : UInt64) : Option UInt32 :=
  match l with
  | .none => Option.none
  | .pending r v => if r = reg then some v else Option.none

end LoadDelay

namespace BranchDelay

def target? : BranchDelay → Option UInt32
  | .pending t => some t
  | _ => Option.none

def ofDecision (taken : Bool) (target : UInt32) : BranchDelay :=
  if taken then .pending target else .notTaken

end BranchDelay

namespace DelaySlots

/-- Enters the slot of the branch before, if there was one, and uses up its decision. The target of
a taken branch is `s.branch.target?`. -/
def enter (s : DelaySlots) : DelaySlots :=
  { s with branch := .none, inSlot := s.branch ≠ .none, taken := s.branch.target?.isSome }

def setBranch (s : DelaySlots) (taken : Bool) (target : UInt32) : DelaySlots :=
  { s with branch := .ofDecision taken target }

def clearBranch (s : DelaySlots) : DelaySlots := { s with branch := .none }

/-- What an exception leaves: no branch, and no slot. -/
def leave (s : DelaySlots) : DelaySlots := { s with branch := .none, inSlot := false, taken := false }

/-- Drops the load on its way to `reg`, as a direct write does. -/
def cancel (s : DelaySlots) (reg : UInt64) : DelaySlots :=
  if (s.load.valueFor reg).isSome then { s with load := .none } else s

/-- Issues a load, which takes the place of one on its way to the same register. -/
def schedule (s : DelaySlots) (reg : UInt64) (value : UInt32) : DelaySlots :=
  if reg = 0 then s else { s.cancel reg with nextLoad := .pending reg value }

def inFlight (s : DelaySlots) (reg : UInt64) : Option UInt32 := s.load.valueFor reg

/-- Moves the newly issued load into the delay slot. -/
def advance (s : DelaySlots) : DelaySlots := { s with load := s.nextLoad, nextLoad := .none }

/-- Lands the load on its way. -/
def land (l : LoadDelay) (f : RegisterFile) : Reported RegisterFile :=
  match l with
  | .none => pure f
  | .pending reg value => do
    note (.loadLanded reg value)
    if h : reg.toNat < 32 then return f.setGpr ⟨reg.toNat, h⟩ value
    else
      fault (.register reg)
      return f

def retire (s : DelaySlots) (f : RegisterFile) : Reported (DelaySlots × RegisterFile) := do
  return (s.advance, ← land s.load f)

end DelaySlots
end R3000
