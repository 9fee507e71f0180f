import R3000.Machine.Coprocessor

/-! # What each instruction does -/
namespace R3000

/-- The result of an operation on a register and an immediate, unless it overflows. -/
def ImmediateAlu.result (op : ImmediateAlu) (s : UInt32) (imm : UInt16) : Option UInt32 :=
  let signed := Word.signExtend16 imm
  match op with
  | .addi => Word.addSigned? s signed
  | .addiu => some (s + signed)
  | .slti => some (Word.ofBool (s.toInt32 < signed.toInt32))
  | .sltiu => some (Word.ofBool (s < signed))
  | .andi => some (s &&& imm.toUInt32)
  | .ori => some (s ||| imm.toUInt32)
  | .xori => some (s ^^^ imm.toUInt32)
  | .lui => some (imm.toUInt32 <<< 16)

/-- The result of an operation on two registers, unless it overflows. -/
def RegisterAlu.result (op : RegisterAlu) (s t : UInt32) : Option UInt32 :=
  match op with
  | .add => Word.addSigned? s t
  | .addu => some (s + t)
  | .sub => Word.subSigned? s t
  | .subu => some (s - t)
  | .and => some (s &&& t)
  | .or => some (s ||| t)
  | .xor => some (s ^^^ t)
  | .nor => some (~~~(s ||| t))
  | .slt => some (Word.ofBool (s.toInt32 < t.toInt32))
  | .sltu => some (Word.ofBool (s < t))

def Shift.result (op : Shift) (t : UInt32) (amount : Fin 32) : UInt32 :=
  match op with
  | .sll => t <<< UInt32.ofNat amount
  | .srl => t >>> UInt32.ofNat amount
  | .sra => (t.toInt32 >>> Int32.ofNat amount).toUInt32

/-- The condition of a branch on the values of its registers. Bit 0 of `rt` turns "less than zero"
into "at least zero". -/
def Branch.taken (op : Branch) (rt : Reg) (s t : UInt32) : Bool :=
  match op with
  | .bcond => if rt.val % 2 = 1 then 0 ≤ s.toInt32 else s.toInt32 < 0
  | .beq => s == t
  | .bne => s != t
  | .blez => s.toInt32 ≤ 0
  | .bgtz => 0 < s.toInt32

namespace Branch
variable (rt : Reg) (s t : UInt32)

theorem taken_beq : taken .beq rt s t ↔ s = t := by
  simp [taken]

theorem taken_bne : taken .bne rt s t ↔ s ≠ t := by
  simp [taken]

theorem taken_blez : taken .blez rt s t ↔ Word.signed s ≤ 0 := by
  simp [taken, Word.signed, Int32.le_iff_toInt_le]

theorem taken_bgtz : taken .bgtz rt s t ↔ 0 < Word.signed s := by
  simp [taken, Word.signed, Int32.lt_iff_toInt_lt]

/-- The low bit of the register field picks one of two opposite conditions. -/
theorem taken_bcond : taken .bcond rt s t ↔ (rt.val % 2 = 1 ↔ 0 ≤ Word.signed s) := by
  simp only [taken, Word.signed]
  by_cases hlow : rt.val % 2 = 1
  · simp [hlow, Int32.le_iff_toInt_le]
  · simp [hlow, Int32.lt_iff_toInt_lt]

end Branch

/-- A branch that links: two values of `rt` out of all. -/
def Branch.links (op : Branch) (rt : Reg) : Bool := op = .bcond && rt.val / 2 == 8

/-- A word loaded at an address, merged into a register from its high end down (`lwl`). -/
def mergeLeft (current word : UInt32) (lane : Fin 4) : UInt32 :=
  let shift := UInt32.ofNat (8 * lane)
  (current &&& (0x00ffffff >>> shift)) ||| (word <<< (24 - shift))

/-- A word loaded at an address, merged into a register from its low end up (`lwr`). -/
def mergeRight (current word : UInt32) (lane : Fin 4) : UInt32 :=
  let shift := UInt32.ofNat (8 * lane)
  (current &&& (0xffffff00 <<< (24 - shift))) ||| (word >>> shift)

namespace Machine
variable {γ δ : Type}

/-- Where a linking jump or branch at `pc` returns to. -/
def returnAddr (pc : UInt32) : UInt32 := pc + 8

def jumpTarget (pc target : UInt32) : UInt32 := ((pc + 4) &&& 0xf0000000) ||| target * 4

/-- The value that a register holds once the load on its way to it has landed. -/
def pendingGpr (r : Reg) : Exec γ δ UInt32 := do
  let cpu := (← get).cpu
  return (cpu.slots.inFlight (loadReg r)).getD (cpu.regs.gpr r)

/-- Writes a result, or raises overflow where there is none. -/
def setResult (r : Reg) : Option UInt32 → Exec γ δ Unit
  | some value => setGpr r value
  | none => throw .overflow

def executeBranch (op : Branch) (f : Immediate) (pc : UInt32) : Exec γ δ Unit := do
  let taken := op.taken f.rt (← gpr f.rs) (← gpr f.rt)
  if op.links f.rt then setGpr .ra (returnAddr pc)
  branch taken (branchTarget pc f.imm)

/-- The value that a load brings to its register. -/
def loaded (op : Load) (rt : Reg) (vaddr : UInt32) : Exec γ δ UInt32 := do
  match op with
  | .lb => return Word.signExtend8 (← load vaddr .byte).toUInt8
  | .lbu => load vaddr .byte
  | .lh => return Word.signExtend16 (← load vaddr .half).toUInt16
  | .lhu => load vaddr .half
  | .lw => load vaddr .word
  | .lwl =>
    let word ← load (Lane.base vaddr) .word
    return mergeLeft (← pendingGpr rt) word (Lane.of vaddr)
  | .lwr =>
    let word ← load (Lane.base vaddr) .word
    return mergeRight (← pendingGpr rt) word (Lane.of vaddr)

def executeStore (op : Store) (vaddr value : UInt32) : Exec γ δ Unit :=
  let lane := Lane.of vaddr
  let shift := UInt32.ofNat (8 * lane)
  match op with
  | .sb => store vaddr value .byte
  | .sh => store vaddr value .half
  | .sw => store vaddr value .word
  | .swl => storeLanes vaddr (value >>> (24 - shift)) 0 lane
  | .swr => storeLanes vaddr (value <<< shift) lane 3

theorem executeStore_swl (vaddr value : UInt32) : executeStore (γ := γ) (δ := δ) .swl vaddr value =
    storePieces vaddr (value >>> (24 - UInt32.ofNat (8 * Lane.of vaddr))) (Lane.upTo (Lane.of vaddr)) := by
  simp only [executeStore, storeLanes, Lane.pieces_upTo]

theorem executeStore_swr (vaddr value : UInt32) : executeStore (γ := γ) (δ := δ) .swr vaddr value =
    storePieces vaddr (value <<< UInt32.ofNat (8 * Lane.of vaddr)) (Lane.onward (Lane.of vaddr)) := by
  simp only [executeStore, storeLanes, Lane.pieces_onward]

def executeImmediate (op : ImmediateOp) (f : Immediate) (pc : UInt32) : Exec γ δ Unit := do
  match op with
  | .alu op => setResult f.rt (op.result (← gpr f.rs) f.imm)
  | .branch op => executeBranch op f pc
  | .load op =>
    let vaddr ← effectiveAddress f.rs f.imm
    scheduleLoad f.rt (← loaded op f.rt vaddr)
  | .store op =>
    let vaddr ← effectiveAddress f.rs f.imm
    executeStore op vaddr (← gpr f.rt)
  | .lwc z => loadCop z f
  | .swc z => storeCop z f

def executeJump (op : JumpOp) (f : Jump) (pc : UInt32) : Exec γ δ Unit := do
  let target := jumpTarget pc f.target
  match op with
  | .j => branch true target
  | .jal =>
    note (.entering target (returnAddr pc) (← gpr .sp))
    setGpr .ra (returnAddr pc)
    branch true target

def issueMulDiv (op : MulDivOp) (lhs rhs : UInt32) : Exec γ δ Unit :=
  plain (modifyCpu fun c => { c with muldiv := .issue op lhs rhs c.clock.retired })

/-- Lands the pending result, if any. Gives the cycles that a read waits for it. -/
def resolveMulDiv : Exec γ δ UInt32 := do
  let cpu := (← get).cpu
  let (stall, muldiv, regs) ← cpu.muldiv.resolve cpu.regs cpu.clock.retired
  plain (modifyCpu fun c => { c with muldiv, regs })
  return stall

def executeRegister (op : RegisterOp) (f : Register) (pc : UInt32) : Exec γ δ Unit := do
  match op with
  | .alu op => setResult f.rd (op.result (← gpr f.rs) (← gpr f.rt))
  | .shift op => setGpr f.rd (op.result (← gpr f.rt) f.shamt)
  | .shiftBy op => setGpr f.rd (op.result (← gpr f.rt) (Word.field5 (← gpr f.rs) 0))
  | .muldiv op => issueMulDiv op (← gpr f.rs) (← gpr f.rt)
  | .jr => branch true (← gpr f.rs)
  | .jalr =>
    -- The target is read before the link is written: both may be the same register.
    let target ← gpr f.rs
    note (.entering target (returnAddr pc) (← gpr .sp))
    setGpr f.rd (returnAddr pc)
    branch true target
  | .syscall =>
    note (.syscall (← gpr .a0))
    throw .syscall
  | .brk =>
    note (.brk (f.code >>> 6) pc)
    throw .breakpoint
  | .mfhi =>
    let stall ← resolveMulDiv
    plain (spend stall.toUInt64)
    setGpr f.rd (← get).cpu.regs.hi
  | .mflo =>
    let stall ← resolveMulDiv
    plain (spend stall.toUInt64)
    setGpr f.rd (← get).cpu.regs.lo
  | .mthi =>
    -- A write does not wait, but the pending result must not land on top of it.
    let _ ← resolveMulDiv
    let value ← gpr f.rs
    modifyRegs ({ · with hi := value })
  | .mtlo =>
    let _ ← resolveMulDiv
    let value ← gpr f.rs
    modifyRegs ({ · with lo := value })
  | .cop z =>
    match z with
    | 0 => executeCop0 f pc
    | 2 => executeCop2 f pc
    | _ => requireCop z

/-- Executes an instruction that lies at `pc`. -/
def execute (i : Instruction) (pc : UInt32) : Exec γ δ Unit :=
  match i with
  | .immediate op f => executeImmediate op f pc
  | .jump op f => executeJump op f pc
  | .register op f => executeRegister op f pc

end Machine
end R3000
