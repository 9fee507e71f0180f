import R3000.MulDiv

/-! # The MIPS I instruction set: formats, operations, instructions

An instruction is an operation together with the fields of its format. The operations of a format
fall into classes that work alike. Coprocessor operations, `syscall` and `break` use the register
format and read their own codes out of it. -/
namespace R3000

/-- The number of a general-purpose register. -/
abbrev Reg := Fin 32

namespace Reg

/-- Always zero. -/
abbrev zero : Reg := 0
/-- The first argument of a call. -/
abbrev a0 : Reg := 4
/-- The stack pointer. -/
abbrev sp : Reg := 29
/-- The return address. -/
abbrev ra : Reg := 31

end Reg

/-- The number of a coprocessor. -/
abbrev Cop := Fin 4

namespace Cop

/-- System control. -/
abbrev system : Cop := 0
abbrev one : Cop := 1
/-- The geometry engine. -/
abbrev geometry : Cop := 2
abbrev three : Cop := 3

end Cop

structure Immediate where
  rs : Reg
  rt : Reg
  imm : UInt16
deriving DecidableEq

/-- The word index of a jump's target within the current 256 MiB region. -/
structure Jump where
  target : UInt32
deriving DecidableEq

structure Register where
  rs : Reg
  rt : Reg
  rd : Reg
  shamt : Fin 32
  funct : Fin 64
deriving DecidableEq

inductive ImmediateAlu | addi | addiu | slti | sltiu | andi | ori | xori | lui deriving DecidableEq

inductive Branch | bcond | beq | bne | blez | bgtz deriving DecidableEq

inductive Load | lb | lbu | lh | lhu | lw | lwl | lwr deriving DecidableEq

inductive Store | sb | sh | sw | swl | swr deriving DecidableEq

inductive ImmediateOp
  | alu (op : ImmediateAlu) | branch (op : Branch) | load (op : Load) | store (op : Store)
  | lwc (z : Cop) | swc (z : Cop)
deriving DecidableEq

inductive JumpOp | j | jal deriving DecidableEq

inductive RegisterAlu | add | addu | sub | subu | and | or | xor | nor | slt | sltu
deriving DecidableEq

inductive Shift | sll | srl | sra deriving DecidableEq

inductive RegisterOp
  | alu (op : RegisterAlu)
  /-- A shift by the amount in the instruction. -/
  | shift (op : Shift)
  /-- A shift by the amount in a register. -/
  | shiftBy (op : Shift)
  | muldiv (op : MulDivOp)
  | jr | jalr | syscall | brk | mfhi | mthi | mflo | mtlo
  | cop (z : Cop)
deriving DecidableEq

/-- An operation without its operands. -/
inductive Kind
  | immediate (op : ImmediateOp) | jump (op : JumpOp) | register (op : RegisterOp)
deriving DecidableEq

inductive Instruction
  | immediate (op : ImmediateOp) (fields : Immediate)
  | jump (op : JumpOp) (fields : Jump)
  | register (op : RegisterOp) (fields : Register)
deriving DecidableEq

def Instruction.kind : Instruction → Kind
  | .immediate op _ => .immediate op
  | .jump op _ => .jump op
  | .register op _ => .register op

def ImmediateOp.name : ImmediateOp → String
  | .alu .addi => "Addi" | .alu .addiu => "Addiu" | .alu .slti => "Slti" | .alu .sltiu => "Sltiu"
  | .alu .andi => "Andi" | .alu .ori => "Ori" | .alu .xori => "Xori" | .alu .lui => "Lui"
  | .branch .bcond => "BCond" | .branch .beq => "Beq" | .branch .bne => "Bne"
  | .branch .blez => "Blez" | .branch .bgtz => "Bgtz"
  | .load .lb => "Lb" | .load .lbu => "Lbu" | .load .lh => "Lh" | .load .lhu => "Lhu"
  | .load .lw => "Lw" | .load .lwl => "Lwl" | .load .lwr => "Lwr"
  | .store .sb => "Sb" | .store .sh => "Sh" | .store .sw => "Sw" | .store .swl => "Swl"
  | .store .swr => "Swr"
  | .lwc z => "Lwc" ++ toString z.val | .swc z => "Swc" ++ toString z.val

def JumpOp.name : JumpOp → String
  | .j => "J" | .jal => "Jal"

def RegisterOp.name : RegisterOp → String
  | .alu .add => "Add" | .alu .addu => "Addu" | .alu .sub => "Sub" | .alu .subu => "Subu"
  | .alu .and => "And" | .alu .or => "Or" | .alu .xor => "Xor" | .alu .nor => "Nor"
  | .alu .slt => "Slt" | .alu .sltu => "Sltu"
  | .shift .sll => "Sll" | .shift .srl => "Srl" | .shift .sra => "Sra"
  | .shiftBy .sll => "Sllv" | .shiftBy .srl => "Srlv" | .shiftBy .sra => "Srav"
  | .muldiv op => op.name
  | .jr => "Jr" | .jalr => "Jalr" | .syscall => "Syscall" | .brk => "Break"
  | .mfhi => "Mfhi" | .mthi => "Mthi" | .mflo => "Mflo" | .mtlo => "Mtlo"
  | .cop z => "Cop" ++ toString z.val

def Kind.name : Kind → String
  | .immediate op => op.name
  | .jump op => op.name
  | .register op => op.name

end R3000
