import R3000.Address
import R3000.Cop0
import R3000.Exception

/-! # Breakpoints and interrupts as the system control registers decide them -/
namespace R3000.Cop0

/-- The execution breakpoint matches an instruction at `pc`. -/
def stopsAt (c : Cop0) (pc : UInt32) : Bool :=
  c.dcic.pce && c.dcic.armed c.status.kuC && (pc ^^^ c.bpc) &&& c.bpcm == 0

/-- The data breakpoint is enabled for this kind of access. -/
def watches (c : Cop0) : Access → Bool
  | .load => c.dcic.dr
  | .store => c.dcic.dw
  | .fetch => false

/-- The data breakpoint matches an access at `vaddr`. -/
def catches (c : Cop0) (access : Access) (vaddr : UInt32) : Bool :=
  c.watches access && c.dcic.dae && c.dcic.armed c.status.kuC && (vaddr ^^^ c.bda) &&& c.bdam == 0

/-- The hit bits of the execution breakpoint. -/
def executionHit : UInt32 := 0b00011

/-- The hit bits of the data breakpoint. -/
def dataHit : Access → UInt32
  | .store => 0b10101
  | _ => 0b01101

def record (c : Cop0) (hits : UInt32) : Cop0 := { c with dcic := c.dcic.record hits }

/-- An enabled interrupt is pending. -/
def interrupted (c : Cop0) : Bool := c.status.ieC && c.status.im &&& c.cause.ip != 0

/-- Shows the level of the interrupt line. -/
def sample (c : Cop0) (line : Bool) : Cop0 := { c with cause := c.cause.setIp2 line }

/-- What the registers show of an exception of the instruction at `pc`; `next` is where execution
would have gone on. In a delay slot the branch is what is to be resumed. -/
def enter (c : Cop0) (e : Exception) (pc next : UInt32) (inSlot taken : Bool) : Cop0 :=
  { c with
    badVaddr := e.badVaddr.getD c.badVaddr
    cause :=
      (((c.cause.setExcCode e.code).setCe e.cop).setBd inSlot).setBt (inSlot && taken)
    epc := if inSlot then pc - 4 else pc
    tar := if inSlot && taken then next else c.tar
    status := c.status.push }

end R3000.Cop0

namespace R3000.Access

/-- The exception of a bad address. -/
def addressError (a : Access) (vaddr : UInt32) : Exception :=
  match a with
  | .store => .addressStore vaddr
  | .fetch | .load => .addressLoad vaddr

/-- The exception of a bus error. -/
def busException : Access → Exception
  | .fetch => .busFetch
  | .load | .store => .busData

end R3000.Access
