import R3000.Word

/-! # The status register

The low six bits are a stack of three frames, each of a mode bit (set in user mode) and an interrupt
enable below it; the current frame is lowest. -/
namespace R3000

structure Status where
  word : UInt32 := 0
deriving DecidableEq

namespace Status

/-- Interrupts are enabled. -/
def ieC (s : Status) : Bool := Word.bit s.word 0

/-- The processor is in user mode. -/
def kuC (s : Status) : Bool := Word.bit s.word 1

def ieP (s : Status) : Bool := Word.bit s.word 2

def kuP (s : Status) : Bool := Word.bit s.word 3

def ieO (s : Status) : Bool := Word.bit s.word 4

def kuO (s : Status) : Bool := Word.bit s.word 5

/-- The interrupt mask. -/
def im (s : Status) : UInt32 := Word.field s.word 8 8

/-- The caches are isolated from the bus. -/
def isc (s : Status) : Bool := Word.bit s.word 16

def swc (s : Status) : Bool := Word.bit s.word 17

def pz (s : Status) : Bool := Word.bit s.word 18

def cm (s : Status) : Bool := Word.bit s.word 19

def pe (s : Status) : Bool := Word.bit s.word 20

def ts (s : Status) : Bool := Word.bit s.word 21

/-- Exceptions go to the bootstrap vectors. -/
def bev (s : Status) : Bool := Word.bit s.word 22

def re (s : Status) : Bool := Word.bit s.word 25

/-- The enable bit of a coprocessor. -/
def cu (s : Status) (z : Nat) : Bool := Word.bit s.word (28 + z)

def setBev (s : Status) (b : Bool) : Status := ⟨Word.setBit s.word 22 b⟩

/-- Enters a kernel frame with interrupts off; the oldest frame is lost. -/
def push (s : Status) : Status := ⟨Word.setField s.word 0 6 (s.word <<< 2)⟩

/-- Leaves the current frame; the oldest one stays in place. -/
def pop (s : Status) : Status := ⟨Word.setField s.word 0 4 (s.word >>> 2)⟩

/-- A coprocessor is usable where its enable bit is set; the kernel may always use number 0. -/
def usable (s : Status) (cop : Nat) : Bool :=
  match cop with
  | 0 => s.cu 0 || !s.kuC
  | 1 => s.cu 1
  | 2 => s.cu 2
  | _ => s.cu 3

end Status
end R3000
