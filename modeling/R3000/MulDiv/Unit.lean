import R3000.MulDiv
import R3000.RegisterFile
import R3000.Report

/-! # The multiply and divide unit

An operation only latches its operands. Its result reaches HI and LO when either is touched next;
a read that comes too early waits for the cycles that no instruction has covered since. -/
namespace R3000

namespace MulDivOp

/-- A double word as its high and its low half. -/
def halves (p : UInt64) : UInt32 × UInt32 := ((p >>> 32).toUInt32, p.toUInt32)

/-- Two words have neither a quotient nor a remainder where the divisor is zero, nor signed ones where the
quotient would not be a word. -/
def divideSigned (n d : Int32) : Reported (Int32 × Int32) := do
  require (d ≠ 0 ∧ ¬(n = Int32.minValue ∧ d = -1)) .division
  return (n / d, n % d)

def divideUnsigned (n d : UInt32) : Reported (UInt32 × UInt32) := do
  require (d ≠ 0) .division
  return (n / d, n % d)

/-- Works the words out that go to HI and LO. A division leaves its remainder in HI; by zero it leaves the
dividend there, and in LO all ones, or 1 where a signed dividend is negative. -/
def result (op : MulDivOp) (lhs rhs : UInt32) : Reported (UInt32 × UInt32) :=
  match op with
  | .mult => pure (halves (lhs.toInt32.toInt64 * rhs.toInt32.toInt64).toUInt64)
  | .multu => pure (halves (lhs.toUInt64 * rhs.toUInt64))
  | .div => do
    if rhs = 0 then return (lhs, if lhs.toInt32 < 0 then 1 else 0xffffffff)
    else if lhs.toInt32 = Int32.minValue ∧ rhs.toInt32 = -1 then return (0, 0x80000000)
    else
      let (quotient, remainder) ← divideSigned lhs.toInt32 rhs.toInt32
      return (remainder.toUInt32, quotient.toUInt32)
  | .divu => do
    if rhs = 0 then return (lhs, 0xffffffff)
    else
      let (quotient, remainder) ← divideUnsigned lhs rhs
      return (remainder, quotient)

/-- What is divided has a quotient. -/
theorem record_result (op : MulDivOp) (lhs rhs : UInt32) : (op.result lhs rhs).record = {} := by
  cases op with
  | mult | multu => rfl
  | div =>
    simp only [result]
    split
    · rfl
    split
    · rfl
    · rename_i hzero hover
      have hdivisor : rhs.toInt32 ≠ 0 := fun h => hzero (congrArg Int32.toUInt32 h)
      simp [divideSigned, hdivisor, hover]
  | divu =>
    simp only [result]
    split
    · rfl
    · rename_i hzero
      simp [divideUnsigned, hzero]

/-- The words that go to HI and LO. -/
def compute (op : MulDivOp) (lhs rhs : UInt32) : UInt32 × UInt32 := (op.result lhs rhs).value

theorem result_eq (op : MulDivOp) (lhs rhs : UInt32) : op.result lhs rhs = pure (op.compute lhs rhs) :=
  Reported.eq_of rfl (record_result op lhs rhs)

example : compute .mult (-3) 7 = (0xffffffff, -21) ∧ compute .div (-7) 2 = (-1, -3) := by decide
example : compute .div 0x80000000 (-1) = (0, 0x80000000) ∧ compute .div (-7) 0 = (-7, 1) := by decide

end MulDivOp

/-- An operation whose result has not been written yet. -/
structure MulDivPending where
  op : MulDivOp
  lhs : UInt32
  rhs : UInt32
  /-- The count of retired instructions when the operation was issued. -/
  issuedAt : UInt64
  latency : UInt32
deriving DecidableEq

structure MulDivUnit where
  pending : Option MulDivPending := none
deriving DecidableEq

namespace MulDivPending

/-- The cycles that a read at `retired` has to wait. -/
def stall (p : MulDivPending) (retired : UInt64) : UInt32 :=
  UInt32.ofNat (p.latency.toNat - (retired.toNat - p.issuedAt.toNat))

end MulDivPending

namespace MulDivUnit

/-- Starts an operation; one that is still pending is lost. -/
def issue (op : MulDivOp) (lhs rhs : UInt32) (retired : UInt64) : MulDivUnit :=
  ⟨some ⟨op, lhs, rhs, retired, op.latency lhs⟩⟩

def busy (u : MulDivUnit) : Bool := u.pending.isSome

/-- Writes the pending result, if any, to HI and LO. Gives the cycles that a read waits for it. -/
def resolve (u : MulDivUnit) (f : RegisterFile) (retired : UInt64) :
    Reported (UInt32 × MulDivUnit × RegisterFile) :=
  match u.pending with
  | none => pure (0, u, f)
  | some p => do
    let (hi, lo) ← p.op.result p.lhs p.rhs
    let stall := p.stall retired
    if 0 < stall then note (.muldivStall p.op stall)
    return (stall, {}, { f with hi, lo })

theorem resolve_eq (u : MulDivUnit) (f : RegisterFile) (retired : UInt64) :
    u.resolve f retired =
      match u.pending with
      | none => pure (0, u, f)
      | some p => do
        if 0 < p.stall retired then note (.muldivStall p.op (p.stall retired))
        return (p.stall retired, {},
          { f with hi := (p.op.compute p.lhs p.rhs).1, lo := (p.op.compute p.lhs p.rhs).2 }) := by
  unfold resolve
  split
  · rfl
  · rw [MulDivOp.result_eq, pure_bind]

end MulDivUnit
end R3000
