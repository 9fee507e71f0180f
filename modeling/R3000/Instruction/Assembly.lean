import R3000.Instruction.Decode
import R3000.Word
import R3000.Text.Numeral

/-! # Assembly text -/
namespace R3000

inductive Operand
  | register (n : UInt8)
  | signed (i : Int)
  | unsigned (n : UInt32)
  /-- A base register and a displacement. -/
  | memory (base : UInt8) (offset : Int)
deriving DecidableEq

structure Assembly where
  mnemonic : String
  operands : List Operand
deriving DecidableEq

def Operand.text : Operand → String
  | .register n => "r" ++ toString n.toNat
  | .signed i => Numeral.operand i
  | .unsigned n => Numeral.operand n.toNat
  | .memory base offset => Numeral.operand offset ++ "(r" ++ toString base.toNat ++ ")"

def Assembly.text (a : Assembly) : String :=
  if a.operands.isEmpty then a.mnemonic
  else a.mnemonic ++ " " ++ ", ".intercalate (a.operands.map Operand.text)

namespace Operand

def reg (r : Reg) : Operand := .register (UInt8.ofNat r.val)

/-- A sign-extended immediate. -/
def simm (imm : UInt16) : Operand := .signed imm.toInt16.toInt

def uimm (imm : UInt16) : Operand := .unsigned imm.toUInt32

/-- A branch displacement in bytes. -/
def displacement (imm : UInt16) : Operand := .signed (imm.toInt16.toInt * 4)

def indirect (base : Reg) (imm : UInt16) : Operand := .memory (UInt8.ofNat base.val) imm.toInt16.toInt

end Operand

namespace ImmediateOp

/-- The operands in the order in which they are written. -/
def operands (op : ImmediateOp) (f : Immediate) : List Operand :=
  match op with
  | .alu .lui => [.reg f.rt, .uimm f.imm]
  | .alu .andi | .alu .ori | .alu .xori => [.reg f.rt, .reg f.rs, .uimm f.imm]
  | .alu _ => [.reg f.rt, .reg f.rs, .simm f.imm]
  | .branch .blez | .branch .bgtz => [.reg f.rs, .displacement f.imm]
  | .branch _ => [.reg f.rs, .reg f.rt, .displacement f.imm]
  | .load _ | .store _ | .lwc _ | .swc _ => [.reg f.rt, .indirect f.rs f.imm]

end ImmediateOp

namespace RegisterOp

def operands (op : RegisterOp) (f : Register) : List Operand :=
  match op with
  | .alu _ => [.reg f.rd, .reg f.rs, .reg f.rt]
  | .shift _ => [.reg f.rd, .reg f.rt, .unsigned (UInt32.ofNat f.shamt)]
  | .shiftBy _ => [.reg f.rd, .reg f.rt, .reg f.rs]
  | .muldiv _ => [.reg f.rs, .reg f.rt]
  | .jr | .mthi | .mtlo => [.reg f.rs]
  | .jalr => [.reg f.rd, .reg f.rs]
  | .mfhi | .mflo => [.reg f.rd]
  | .syscall | .brk => [.unsigned (f.code >>> 6)]
  | .cop _ => [.unsigned f.code]

end RegisterOp

namespace Instruction

def assembly : Instruction → Assembly
  | .immediate op f => ⟨op.name.map Char.toLower, op.operands f⟩
  | .jump op f => ⟨op.name.map Char.toLower, [.unsigned (f.target <<< 2)]⟩
  | .register op f => ⟨op.name.map Char.toLower, op.operands f⟩

/-- The operation with its fields in decimal, by name. -/
def describe (i : Instruction) : String :=
  let named (fields : List (String × Nat)) : String :=
    i.kind.name ++ "(Instr \x7b "
      ++ ", ".intercalate (fields.map fun f => f.1 ++ ": " ++ toString f.2) ++ " \x7d)"
  match i with
  | .immediate _ f => named [("rs", f.rs), ("rt", f.rt), ("imm", f.imm.toNat)]
  | .jump _ f => named [("target", f.target.toNat)]
  | .register _ f =>
    named [("rs", f.rs), ("rt", f.rt), ("rd", f.rd), ("shamt", f.shamt), ("funct", f.funct)]

end Instruction
end R3000
