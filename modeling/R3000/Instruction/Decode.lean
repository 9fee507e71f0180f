import R3000.Instruction

/-! # Reading instructions out of words

The top six bits of a word choose the operation; where they are zero the low six bits do. The two
tables share no operation, and each format keeps every bit that the tables do not fix, so a word can
be told from its instruction. -/
namespace R3000

namespace Word

/-- The five bits of a word from bit `lo` up. -/
def field5 (w : UInt32) (lo : Nat) : Fin 32 := ⟨(w.toNat >>> lo) % 32, Nat.mod_lt _ (by decide)⟩

def opcode (w : UInt32) : Fin 64 := ⟨(w.toNat >>> 26) % 64, Nat.mod_lt _ (by decide)⟩

def funct (w : UInt32) : Fin 64 := ⟨w.toNat % 64, Nat.mod_lt _ (by decide)⟩

end Word

def Immediate.decode (w : UInt32) : Immediate where
  rs := Word.field5 w 21
  rt := Word.field5 w 16
  imm := w.toUInt16

def Jump.decode (w : UInt32) : Jump where
  target := w &&& 0x03ffffff

namespace Register

def decode (w : UInt32) : Register where
  rs := Word.field5 w 21
  rt := Word.field5 w 16
  rd := Word.field5 w 11
  shamt := Word.field5 w 6
  funct := Word.funct w

/-- The low 26 bits of the word that the fields were read from. -/
def code (f : Register) : UInt32 :=
  UInt32.ofNat f.rs <<< 21 ||| UInt32.ofNat f.rt <<< 16 ||| UInt32.ofNat f.rd <<< 11
    ||| UInt32.ofNat f.shamt <<< 6 ||| UInt32.ofNat f.funct

end Register

/-- The operation of a non-zero opcode. -/
def Kind.ofOpcode? : Nat → Option Kind
  | 0b000001 => some (.immediate (.branch .bcond))
  | 0b000010 => some (.jump .j)
  | 0b000011 => some (.jump .jal)
  | 0b000100 => some (.immediate (.branch .beq))
  | 0b000101 => some (.immediate (.branch .bne))
  | 0b000110 => some (.immediate (.branch .blez))
  | 0b000111 => some (.immediate (.branch .bgtz))
  | 0b001000 => some (.immediate (.alu .addi))
  | 0b001001 => some (.immediate (.alu .addiu))
  | 0b001010 => some (.immediate (.alu .slti))
  | 0b001011 => some (.immediate (.alu .sltiu))
  | 0b001100 => some (.immediate (.alu .andi))
  | 0b001101 => some (.immediate (.alu .ori))
  | 0b001110 => some (.immediate (.alu .xori))
  | 0b001111 => some (.immediate (.alu .lui))
  | 0b010000 => some (.register (.cop .system))
  | 0b010001 => some (.register (.cop .one))
  | 0b010010 => some (.register (.cop .geometry))
  | 0b010011 => some (.register (.cop .three))
  | 0b100000 => some (.immediate (.load .lb))
  | 0b100001 => some (.immediate (.load .lh))
  | 0b100010 => some (.immediate (.load .lwl))
  | 0b100011 => some (.immediate (.load .lw))
  | 0b100100 => some (.immediate (.load .lbu))
  | 0b100101 => some (.immediate (.load .lhu))
  | 0b100110 => some (.immediate (.load .lwr))
  | 0b101000 => some (.immediate (.store .sb))
  | 0b101001 => some (.immediate (.store .sh))
  | 0b101010 => some (.immediate (.store .swl))
  | 0b101011 => some (.immediate (.store .sw))
  | 0b101110 => some (.immediate (.store .swr))
  | 0b110000 => some (.immediate (.lwc .system))
  | 0b110001 => some (.immediate (.lwc .one))
  | 0b110010 => some (.immediate (.lwc .geometry))
  | 0b110011 => some (.immediate (.lwc .three))
  | 0b111000 => some (.immediate (.swc .system))
  | 0b111001 => some (.immediate (.swc .one))
  | 0b111010 => some (.immediate (.swc .geometry))
  | 0b111011 => some (.immediate (.swc .three))
  | _ => none

/-- The operation chosen by the low six bits under opcode zero. -/
def RegisterOp.ofFunct? : Nat → Option RegisterOp
  | 0b000000 => some (.shift .sll)
  | 0b000010 => some (.shift .srl)
  | 0b000011 => some (.shift .sra)
  | 0b000100 => some (.shiftBy .sll)
  | 0b000110 => some (.shiftBy .srl)
  | 0b000111 => some (.shiftBy .sra)
  | 0b001000 => some .jr
  | 0b001001 => some .jalr
  | 0b001100 => some .syscall
  | 0b001101 => some .brk
  | 0b010000 => some .mfhi
  | 0b010001 => some .mthi
  | 0b010010 => some .mflo
  | 0b010011 => some .mtlo
  | 0b011000 => some (.muldiv .mult)
  | 0b011001 => some (.muldiv .multu)
  | 0b011010 => some (.muldiv .div)
  | 0b011011 => some (.muldiv .divu)
  | 0b100000 => some (.alu .add)
  | 0b100001 => some (.alu .addu)
  | 0b100010 => some (.alu .sub)
  | 0b100011 => some (.alu .subu)
  | 0b100100 => some (.alu .and)
  | 0b100101 => some (.alu .or)
  | 0b100110 => some (.alu .xor)
  | 0b100111 => some (.alu .nor)
  | 0b101010 => some (.alu .slt)
  | 0b101011 => some (.alu .sltu)
  | _ => none

/-- The operation that a word encodes, if any. -/
def Kind.of? (w : UInt32) : Option Kind :=
  if Word.opcode w = 0 then (RegisterOp.ofFunct? (Word.funct w)).map .register
  else Kind.ofOpcode? (Word.opcode w)

/-- The instruction that a word encodes, if any. -/
def Instruction.decode (w : UInt32) : Option Instruction :=
  (Kind.of? w).map fun
    | .immediate op => .immediate op (.decode w)
    | .jump op => .jump op (.decode w)
    | .register op => .register op (.decode w)

/-- A word has an instruction exactly where it has an operation, and then of that operation. -/
theorem Instruction.map_kind_decode (w : UInt32) :
    (Instruction.decode w).map Instruction.kind = Kind.of? w := by
  unfold Instruction.decode
  cases Kind.of? w with
  | none => rfl
  | some k => cases k <;> rfl

example : Instruction.decode 0x27bdffe8 = some (.immediate (.alu .addiu) ⟨29, 29, 0xffe8⟩) := by decide

end R3000
