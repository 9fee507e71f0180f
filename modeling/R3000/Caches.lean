import R3000.DataArray
import R3000.ICache
import R3000.Word

/-! # The caches and the control word that configures them -/
namespace R3000

/-- The control word of the bus interface unit. -/
structure Biu where
  word : UInt32 := 0
deriving DecidableEq

namespace Biu

/-- The address of the control word, in kseg2. -/
def addr : UInt32 := 0xfffe0130

def lock (b : Biu) : Bool := Word.bit b.word 0

def inv (b : Biu) : Bool := Word.bit b.word 1

/-- Isolated stores go to the tags of the instruction cache, not to its words. -/
def tag (b : Biu) : Bool := Word.bit b.word 2

/-- The data array is scratchpad RAM, not a cache. -/
def ram (b : Biu) : Bool := Word.bit b.word 3

/-- The data array is enabled. -/
def ds (b : Biu) : Bool := Word.bit b.word 7

/-- The instruction cache is enabled. -/
def is1 (b : Biu) : Bool := Word.bit b.word 11

def scratchpad (b : Biu) : Bool := b.ds && b.ram

def dataCache (b : Biu) : Bool := b.ds && !b.ram

/-- Two control words select the same modes. -/
def sameMode (a b : Biu) : Bool := a.ram == b.ram && a.ds == b.ds && a.is1 == b.is1

end Biu

structure Caches where
  instr : ICache := {}
  data : DataArray := {}
  biu : Biu := {}
deriving DecidableEq

namespace Caches

def invalidateAll (c : Caches) : Caches :=
  { c with instr := c.instr.invalidateAll, data := c.data.invalidateAll }

/-- Writes the control word. A change of mode invalidates both caches. -/
def setBiu (c : Caches) (value : UInt32) : Reported Caches :=
  if c.biu.sameMode ⟨value⟩ then return { c with biu := ⟨value⟩ }
  else do
    note (.cacheMode c.biu.word value)
    return { c.invalidateAll with biu := ⟨value⟩ }

end Caches
end R3000
