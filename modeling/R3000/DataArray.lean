import R3000.Word.Lane

/-! # The data array

One KiB of fast memory beside the processor. As scratchpad RAM it is addressed directly; as a data
cache it holds single words of main RAM, tagged with the physical address bits above its own size. -/
namespace R3000

structure DataArray where
  words : Vector UInt32 256 := Vector.replicate 256 0
  /-- The tag of each word, where it is a cached copy. -/
  tags : Vector (Option UInt32) 256 := Vector.replicate 256 none
deriving DecidableEq

namespace DataArray

/-- The physical address of the scratchpad. -/
def base : UInt32 := 0x1f800000

def size : UInt32 := 0x400

def covers (addr : UInt32) : Bool := base ≤ addr && addr < base + size

def index (addr : UInt32) : Fin 256 := ⟨(addr.toNat >>> 2) % 256, Nat.mod_lt _ (by decide)⟩

def tag (addr : UInt32) : UInt32 := addr >>> 10

def word (d : DataArray) (addr : UInt32) : UInt32 := d.words[index addr]

def read (d : DataArray) (addr : UInt32) (w : Width) : UInt32 := Lane.extract (d.word addr) addr w

def write (d : DataArray) (addr value : UInt32) (w : Width) : DataArray :=
  { d with words := d.words.set (index addr) (Lane.insert (d.word addr) value addr w) }

/-- The cached copy of the word at an address, if there is one. -/
def lookup (d : DataArray) (addr : UInt32) : Option UInt32 :=
  if d.tags[index addr] = some (tag addr) then some (d.word addr) else none

/-- Caches the word at an address. -/
def fill (d : DataArray) (addr value : UInt32) : DataArray :=
  ⟨d.words.set (index addr) value, d.tags.set (index addr) (some (tag addr))⟩

/-- Keeps a cached copy in step with a store. -/
def writeThrough (d : DataArray) (addr value : UInt32) (w : Width) : DataArray :=
  if (d.lookup addr).isSome then d.write addr value w else d

/-- Writes the bare array; the word is no cached copy any more. -/
def storeIsolated (d : DataArray) (addr value : UInt32) (w : Width) : DataArray :=
  let d := d.write addr value w
  { d with tags := d.tags.set (index addr) none }

def invalidateAll (d : DataArray) : DataArray := { d with tags := Vector.replicate 256 none }

def describe (d : DataArray) : String :=
  "Cache(" ++ toString (d.tags.toList.countP Option.isSome) ++ " of 256 words tagged)"

end DataArray
end R3000
