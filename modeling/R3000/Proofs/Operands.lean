import R3000.Machine.Step

/-! # Instructions on given operands

An instruction reads its operands, does its work, and only then touches the registers: it writes one
at once, or issues one load, and it may decide a branch. Here the work is separated from the reading
before it and the writing after it. -/
namespace R3000

/-- What an instruction reads: the registers, and the load on its way to one of them. -/
structure Operands where
  gpr : Reg → UInt32
  load : LoadDelay

namespace Operands

/-- What a register holds once the load on its way to it has landed. -/
def pending (o : Operands) (r : Reg) : UInt32 :=
  (o.load.valueFor (Machine.loadReg r)).getD (o.gpr r)

/-- The address that a load or store forms. -/
def address (o : Operands) (f : Immediate) : UInt32 := o.gpr f.rs + Word.signExtend16 f.imm

end Operands

inductive Effect
  | keep
  /-- A register is written at once. -/
  | write (r : Reg) (value : UInt32)
  /-- A load is issued. -/
  | load (r : Reg) (value : UInt32)
deriving DecidableEq

namespace Effect

/-- What the registers hold after an instruction that found these operands and had this effect. A load
on its way lands, unless its register has been written or another load was issued to it. -/
def landed (e : Effect) (o : Operands) (r : Reg) : UInt32 :=
  match e with
  | .keep => o.pending r
  | .write s value => if s ≠ .zero ∧ r = s then value else o.pending r
  | .load s _ => if r = s then o.gpr r else o.pending r

/-- The load that is on its way after an instruction; none ever is to register 0. -/
def issued : Effect → LoadDelay
  | .load r value => if r = .zero then .none else .pending (Machine.loadReg r) value
  | _ => .none

end Effect

/-- What an instruction at `pc` decides about the flow of control; nothing, if it is no branch. The
condition of a coprocessor reads as false. -/
def Instruction.decision (i : Instruction) (pc : UInt32) (gpr : Reg → UInt32) : BranchDelay :=
  match i with
  | .immediate (.branch op) f =>
    .ofDecision (op.taken f.rt (gpr f.rs) (gpr f.rt)) (Machine.branchTarget pc f.imm)
  | .jump _ f => .pending (Machine.jumpTarget pc f.target)
  | .register .jr f | .register .jalr f => .pending (gpr f.rs)
  | .register (.cop _) f =>
    if !Machine.isCommand f && f.rs.val == 8 then
      .ofDecision (f.rt.val % 2 == 0) (Machine.branchTarget pc f.code.toUInt16)
    else .none
  | _ => .none

/-- The virtual address that a load reads at. -/
def Load.access (op : Load) (vaddr : UInt32) : UInt32 :=
  match op with
  | .lb | .lbu | .lh | .lhu | .lw => vaddr
  | .lwl | .lwr => Lane.base vaddr

/-- The virtual addresses that a store writes at: part of a word is written in pieces. -/
def Store.accesses (op : Store) (vaddr : UInt32) : List UInt32 :=
  match op with
  | .sb | .sh | .sw => [vaddr]
  | .swl => (Lane.upTo (Lane.of vaddr)).map fun p => Lane.base vaddr + p.1
  | .swr => (Lane.onward (Lane.of vaddr)).map fun p => Lane.base vaddr + p.1

def Cop.accesses (z : Cop) (vaddr : UInt32) : List UInt32 := if z = .geometry then [vaddr] else []

def Instruction.accesses (i : Instruction) (o : Operands) : List UInt32 :=
  match i with
  | .immediate (.load op) f => [op.access (o.address f)]
  | .immediate (.store op) f => op.accesses (o.address f)
  | .immediate (.lwc z) f | .immediate (.swc z) f => z.accesses (o.address f)
  | _ => []

/-- The register that an instruction loads into by merging. -/
def Instruction.merged? : Instruction → Option Reg
  | .immediate (.load .lwl) f | .immediate (.load .lwr) f => some f.rt
  | _ => none

namespace Machine
variable {γ δ : Type}

def operands (m : Machine γ δ) : Operands := ⟨m.cpu.regs.gpr, m.cpu.slots.load⟩

def formAddress (o : Operands) (f : Immediate) : Exec γ δ UInt32 := do
  note (.effectiveAddress (o.gpr f.rs) (Word.signExtend16 f.imm))
  return o.address f

/-- The value that a load brings, where `current` is what it merges with. -/
def brought (op : Load) (current vaddr : UInt32) : Exec γ δ UInt32 := do
  match op with
  | .lb => return Word.signExtend8 (← load vaddr .byte).toUInt8
  | .lbu => load vaddr .byte
  | .lh => return Word.signExtend16 (← load vaddr .half).toUInt16
  | .lhu => load vaddr .half
  | .lw => load vaddr .word
  | .lwl => return mergeLeft current (← load (Lane.base vaddr) .word) (Lane.of vaddr)
  | .lwr => return mergeRight current (← load (Lane.base vaddr) .word) (Lane.of vaddr)

def resultOf (r : Reg) : Option UInt32 → Exec γ δ Effect
  | some value => return .write r value
  | none => throw .overflow

def performLoadCop (o : Operands) (z : Cop) (f : Immediate) : Exec γ δ Unit := do
  requireCop z
  let vaddr ← formAddress o f
  if z = .geometry then
    let value ← load vaddr .word
    modify fun m => { m with gteState := m.gte.setData m.gteState f.rt value }
  else note (.copLoadIgnored z)

def performStoreCop (o : Operands) (z : Cop) (f : Immediate) : Exec γ δ Unit := do
  requireCop z
  let vaddr ← formAddress o f
  if z = .geometry then
    plain awaitGte
    let m ← get
    store vaddr (m.gte.data m.gteState f.rt) .word
  else note (.copStoreIgnored z)

def performImmediate (o : Operands) (pc : UInt32) (op : ImmediateOp) (f : Immediate) :
    Exec γ δ Effect := do
  match op with
  | .alu op => resultOf f.rt (op.result (o.gpr f.rs) f.imm)
  | .branch op => return if op.links f.rt then .write .ra (returnAddr pc) else .keep
  | .load op => return .load f.rt (← brought op (o.pending f.rt) (← formAddress o f))
  | .store op =>
    executeStore op (← formAddress o f) (o.gpr f.rt)
    return .keep
  | .lwc z =>
    performLoadCop o z f
    return .keep
  | .swc z =>
    performStoreCop o z f
    return .keep

def performJump (o : Operands) (pc : UInt32) (op : JumpOp) (f : Jump) : Exec γ δ Effect := do
  match op with
  | .j => return .keep
  | .jal =>
    note (.entering (jumpTarget pc f.target) (returnAddr pc) (o.gpr .sp))
    return .write .ra (returnAddr pc)

def performCop0 (o : Operands) (pc : UInt32) (f : Register) : Exec γ δ Effect := do
  requireCop .system
  if isCommand f then
    commandCop0 f pc
    return .keep
  else
    match f.rs.val with
    | 0 =>
      match (← get).cpu.regs.cop0.read? f.rd with
      | some value => return .load f.rt value
      | none =>
        note (.noCop0Register f.rd)
        return .keep
    | 4 =>
      let cop0 ← (← get).cpu.regs.cop0.write f.rd (o.gpr f.rt)
      modifyCop0 fun _ => cop0
      return .keep
    | 2 | 6 =>
      note (.noCop0Control f.code)
      return .keep
    | 8 => return .keep
    | _ =>
      note (.unknownCopOperation 0 f.rs pc)
      return .keep

def performCop2 (o : Operands) (pc : UInt32) (f : Register) : Exec γ δ Effect := do
  requireCop .geometry
  if isCommand f then
    commandGte f
    return .keep
  else
    match f.rs.val with
    | 0 =>
      plain awaitGte
      let m ← get
      return .load f.rt (m.gte.data m.gteState f.rd)
    | 2 =>
      plain awaitGte
      let m ← get
      return .load f.rt (m.gte.control m.gteState f.rd)
    | 4 =>
      modify fun m => { m with gteState := m.gte.setData m.gteState f.rd (o.gpr f.rt) }
      return .keep
    | 6 =>
      modify fun m => { m with gteState := m.gte.setControl m.gteState f.rd (o.gpr f.rt) }
      return .keep
    | 8 => return .keep
    | _ =>
      note (.unknownCopOperation 2 f.rs pc)
      return .keep

def performRegister (o : Operands) (pc : UInt32) (op : RegisterOp) (f : Register) :
    Exec γ δ Effect := do
  match op with
  | .alu op => resultOf f.rd (op.result (o.gpr f.rs) (o.gpr f.rt))
  | .shift op => return .write f.rd (op.result (o.gpr f.rt) f.shamt)
  | .shiftBy op => return .write f.rd (op.result (o.gpr f.rt) (Word.field5 (o.gpr f.rs) 0))
  | .muldiv op =>
    issueMulDiv op (o.gpr f.rs) (o.gpr f.rt)
    return .keep
  | .jr => return .keep
  | .jalr =>
    note (.entering (o.gpr f.rs) (returnAddr pc) (o.gpr .sp))
    return .write f.rd (returnAddr pc)
  | .syscall =>
    note (.syscall (o.gpr .a0))
    throw .syscall
  | .brk =>
    note (.brk (f.code >>> 6) pc)
    throw .breakpoint
  | .mfhi =>
    let stall ← resolveMulDiv
    plain (spend stall.toUInt64)
    return .write f.rd (← get).cpu.regs.hi
  | .mflo =>
    let stall ← resolveMulDiv
    plain (spend stall.toUInt64)
    return .write f.rd (← get).cpu.regs.lo
  | .mthi =>
    let _ ← resolveMulDiv
    modifyRegs ({ · with hi := o.gpr f.rs })
    return .keep
  | .mtlo =>
    let _ ← resolveMulDiv
    modifyRegs ({ · with lo := o.gpr f.rs })
    return .keep
  | .cop z =>
    match z with
    | 0 => performCop0 o pc f
    | 2 => performCop2 o pc f
    | _ =>
      requireCop z
      return .keep

/-- The work of an instruction at `pc` on its operands; the registers are neither read nor written. -/
def perform (o : Operands) (pc : UInt32) : Instruction → Exec γ δ Effect
  | .immediate op f => performImmediate o pc op f
  | .jump op f => performJump o pc op f
  | .register op f => performRegister o pc op f

def commit : Effect → Exec γ δ Unit
  | .keep => pure ()
  | .write r value => setGpr r value
  | .load r value => scheduleLoad r value

def decideBranch : BranchDelay → Exec γ δ Unit
  | .none => pure ()
  | .notTaken => branch false 0
  | .pending target => branch true target

end Machine
end R3000
