import R3000.Cop0
import R3000.Instruction
import R3000.Text.Numeral

/-! # The register file

Register 0 reads as zero and keeps nothing, so only registers 1 to 31 are stored. -/
namespace R3000

structure RegisterFile where
  pc : UInt32 := 0
  hi : UInt32 := 0
  lo : UInt32 := 0
  /-- Registers 1 to 31. -/
  gprs : Vector UInt32 31 := Vector.replicate 31 0
  cop0 : Cop0 := {}
deriving DecidableEq

namespace RegisterFile

def gpr (f : RegisterFile) (r : Reg) : UInt32 :=
  if h : r.val = 0 then 0 else f.gprs[r.val - 1]

def setGpr (f : RegisterFile) (r : Reg) (value : UInt32) : RegisterFile :=
  if h : r.val = 0 then f else { f with gprs := f.gprs.set (r.val - 1) value }

@[simp] theorem gpr_zero (f : RegisterFile) : f.gpr 0 = 0 := rfl

@[simp] theorem setGpr_zero (f : RegisterFile) (v : UInt32) : f.setGpr 0 v = f := rfl

theorem gpr_setGpr (f : RegisterFile) (r s : Reg) (v : UInt32) :
    (f.setGpr r v).gpr s = if s ≠ 0 ∧ s = r then v else f.gpr s := by
  by_cases hs : s = 0
  · simp [hs]
  by_cases hr : r = 0
  · simp [hr, hs]
  have hs' : s.val ≠ 0 := fun h => hs (Fin.ext h)
  have hr' : r.val ≠ 0 := fun h => hr (Fin.ext h)
  have hne : s = r ↔ r.val - 1 = s.val - 1 :=
    ⟨fun h => by rw [h], fun h => Fin.ext (by omega)⟩
  simp only [gpr, setGpr, hs, hs', hr', dite_false, Vector.getElem_set, hne, ne_eq,
    not_false_eq_true, true_and]

@[simp] theorem pc_setGpr (f : RegisterFile) (r : Reg) (v : UInt32) : (f.setGpr r v).pc = f.pc := by
  unfold setGpr; split <;> rfl

@[simp] theorem hi_setGpr (f : RegisterFile) (r : Reg) (v : UInt32) : (f.setGpr r v).hi = f.hi := by
  unfold setGpr; split <;> rfl

@[simp] theorem lo_setGpr (f : RegisterFile) (r : Reg) (v : UInt32) : (f.setGpr r v).lo = f.lo := by
  unfold setGpr; split <;> rfl

@[simp] theorem cop0_setGpr (f : RegisterFile) (r : Reg) (v : UInt32) :
    (f.setGpr r v).cop0 = f.cop0 := by
  unfold setGpr; split <;> rfl

/-- The registers in two columns: 1 to 15 at the left, the register sixteen above at the right. -/
def text (f : RegisterFile) : String :=
  let word (w : UInt32) := Numeral.digits w.toNat 8
  let named (r : Reg) :=
    String.ofList (("r" ++ toString r.val ++ ":").toList.rightpad 4 ' ') ++ word (f.gpr r)
  let line (i : Fin 15) := named ⟨i + 1, by omega⟩ ++ " " ++ named ⟨i + 17, by omega⟩ ++ "\n"
  "pc: " ++ word f.pc ++ " " ++ named ⟨16, by decide⟩ ++ "\n"
    ++ String.join ((List.finRange 15).map line)
    ++ "hi: " ++ word f.hi ++ " lo: " ++ word f.lo ++ "\n"
    ++ "sr: " ++ word f.cop0.status.word ++ " cause: " ++ word f.cop0.cause.word ++ " epc: "
    ++ word f.cop0.epc ++ "\n"

end RegisterFile
end R3000
