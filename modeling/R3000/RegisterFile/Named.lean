import R3000.RegisterFile

/-! # Registers by name

Reading and writing by name passes by everything that software is held to: read-only bits and
registers are written like any other. -/
namespace R3000.RegisterFile

structure Named where
  name : String
  read : RegisterFile → UInt32
  write : UInt32 → RegisterFile → RegisterFile

namespace Named

def gpr (r : Reg) : Named := ⟨"r" ++ toString r.val, (·.gpr r), fun v f => f.setGpr r v⟩

/-- A register of the system control coprocessor. -/
def control (name : String) (read : Cop0 → UInt32) (write : UInt32 → Cop0 → Cop0) : Named :=
  ⟨name, fun f => read f.cop0, fun v f => { f with cop0 := write v f.cop0 }⟩

end Named

/-- The program counter and the results of multiplications. -/
def specials : List Named :=
  [⟨"pc", (·.pc), fun v f => { f with pc := v }⟩, ⟨"hi", (·.hi), fun v f => { f with hi := v }⟩,
    ⟨"lo", (·.lo), fun v f => { f with lo := v }⟩]

def controls : List Named :=
  [.control "bpc" (·.bpc) fun v c => { c with bpc := v },
    .control "bda" (·.bda) fun v c => { c with bda := v },
    .control "tar" (·.tar) fun v c => { c with tar := v },
    .control "dcic" (·.dcic.word) fun v c => { c with dcic := ⟨v⟩ },
    .control "bad_vaddr" (·.badVaddr) fun v c => { c with badVaddr := v },
    .control "bdam" (·.bdam) fun v c => { c with bdam := v },
    .control "bpcm" (·.bpcm) fun v c => { c with bpcm := v },
    .control "status" (·.status.word) fun v c => { c with status := ⟨v⟩ },
    .control "cause" (·.cause.word) fun v c => { c with cause := ⟨v⟩ },
    .control "epc" (·.epc) fun v c => { c with epc := v },
    .control "prid" (·.prid) fun v c => { c with prid := v }]

/-- Every register that keeps a value, in the order in which registers are listed. -/
def named : List Named := specials ++ (List.finRange 32).tail.map Named.gpr ++ controls

/-- Writes the register of this name. Register 0 goes by a name too, and keeps nothing. -/
def writeNamed? (f : RegisterFile) (name : String) (value : UInt32) : Option RegisterFile :=
  ((Named.gpr .zero :: named).find? (·.name == name)).map fun r => r.write value f

end R3000.RegisterFile
