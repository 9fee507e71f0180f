/-! # Access widths -/
namespace R3000

inductive Width | byte | half | word deriving DecidableEq

namespace Width

/-- The number of bytes moved by one access. -/
def len : Width → UInt32
  | .byte => 1 | .half => 2 | .word => 4

def bytes : Width → Nat
  | .byte => 1 | .half => 2 | .word => 4

/-- Natural alignment: the address is a multiple of the width. -/
def aligned (w : Width) (addr : UInt32) : Bool := addr &&& (w.len - 1) == 0

theorem bytes_pos (w : Width) : 0 < w.bytes := by cases w <;> decide

end Width
end R3000
