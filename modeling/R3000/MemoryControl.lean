import R3000.Report

/-! # Memory control

The bases and timings of the external banks. They are kept so that software reads back what it wrote;
none of them changes which bank an address belongs to. -/
namespace R3000

structure MemoryControl where
  banks : Vector UInt32 9
  ramSize : UInt32
deriving DecidableEq

namespace MemoryControl

def names : Vector String 9 :=
  #v["EXP_1_BASE", "EXP_2_BASE", "EXP_1_CFG", "EXP_3_CFG", "BIOS_CFG", "SPU_CFG", "CDROM_CFG",
    "EXP_2_CFG", "COMMON_CFG"]

/-- The values that software writes at boot. -/
def boot (ramSize : UInt32) : MemoryControl where
  banks := #v[0x1f000000, 0x1f802000, 0x0013243f, 0x00003022, 0x0013243f, 0x200931e1, 0x00020843,
    0x00070777, 0x00031125]
  ramSize := ramSize

/-- The bank register with a number; others read as zero. -/
def read (m : MemoryControl) (index : Nat) : UInt32 :=
  if h : index < 9 then m.banks[index] else 0

/-- The top byte of the two expansion bases is fixed. -/
def stored (index : Fin 9) (value : UInt32) : UInt32 :=
  if index.val < 2 then (value &&& 0x00ffffff) ||| 0x1f000000 else value

def write (m : MemoryControl) (index : Nat) (value : UInt32) : Reported MemoryControl := do
  if h : index < 9 then
    let value := stored ⟨index, h⟩ value
    note (.memoryControl names[index] value)
    return { m with banks := m.banks.set index value }
  else
    note (.noMemoryControlRegister index)
    return m

end MemoryControl
end R3000
