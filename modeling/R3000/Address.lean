import R3000.Width

/-! # Virtual addresses

There is no TLB. The low 2 GiB and two windows above them all show the low 512 MiB of
physical memory; the rest of the space is passed through as it is. -/
namespace R3000

inductive Segment | kuseg | kseg0 | kseg1 | kseg2 deriving DecidableEq

namespace Segment

def of (vaddr : UInt32) : Segment :=
  if vaddr < 0x80000000 then .kuseg
  else if vaddr < 0xa0000000 then .kseg0
  else if vaddr < 0xc0000000 then .kseg1
  else .kseg2

def cached : Segment → Bool
  | .kuseg | .kseg0 => true
  | .kseg1 | .kseg2 => false

/-- Closed to user mode. -/
def kernel : Segment → Bool
  | .kuseg => false
  | _ => true

def name : Segment → String
  | .kuseg => "Kuseg" | .kseg0 => "Kseg0" | .kseg1 => "Kseg1" | .kseg2 => "Kseg2"

end Segment

/-- The physical address behind a virtual one. -/
def translate (vaddr : UInt32) : UInt32 :=
  match Segment.of vaddr with
  | .kseg2 => vaddr
  | _ => vaddr &&& 0x1fffffff

/-- What an access is for. -/
inductive Access | fetch | load | store deriving DecidableEq

def Access.name : Access → String
  | .fetch => "Fetch" | .load => "Load" | .store => "Store"

end R3000
