/-! # Exceptions

An exception interrupts the flow of instructions, because of an error or because software asks for
it. It carries what the system control registers are to show of it. -/
namespace R3000

/-- The handlers that exceptions enter: breakpoint traps have one of their own. -/
inductive Handler | general | debug deriving DecidableEq

/-- Where a handler lies: in ROM while the bootstrap vectors are selected, else in RAM. -/
def Handler.address (h : Handler) (bootstrap : Bool) : UInt32 :=
  match h, bootstrap with
  | .general, true => 0xbfc00180
  | .general, false => 0x80000080
  | .debug, true => 0xbfc00140
  | .debug, false => 0x80000040

structure Exception where
  code : UInt32
  /-- The address that BadVaddr is to hold, for address errors. -/
  badVaddr : Option UInt32 := none
  /-- The coprocessor that was asked for. -/
  cop : UInt32 := 0
  handler : Handler := .general
deriving DecidableEq

namespace Exception

/-- The names of the exception codes, in order. -/
def names : List String :=
  ["Int", "Mod", "TLBL", "TLBS", "AdEL", "AdES", "IBE", "DBE", "Sys", "Bp", "RI", "CpU", "Ov"]

def interrupt : Exception := { code := 0 }

def addressLoad (vaddr : UInt32) : Exception := { code := 4, badVaddr := some vaddr }

def addressStore (vaddr : UInt32) : Exception := { code := 5, badVaddr := some vaddr }

/-- A bus error on an instruction fetch. -/
def busFetch : Exception := { code := 6 }

/-- A bus error on a load or a store. -/
def busData : Exception := { code := 7 }

def syscall : Exception := { code := 8 }

def breakpoint : Exception := { code := 9 }

/-- The trap of a hardware breakpoint. -/
def debug : Exception := { code := 9, handler := .debug }

def copUnusable (cop : UInt32) : Exception := { code := 11, cop }

def overflow : Exception := { code := 12 }

def name (e : Exception) : String := names.getD e.code.toNat "?"

end Exception
end R3000
