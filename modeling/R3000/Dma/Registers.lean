import R3000.Word

/-! # The registers of the DMA controller -/
namespace R3000.Dma

structure ChannelControl where
  word : UInt32 := 0
deriving DecidableEq

namespace ChannelControl

/-- Data moves out of RAM. -/
def fromRam (c : ChannelControl) : Bool := Word.bit c.word 0

/-- The address steps backwards. -/
def backward (c : ChannelControl) : Bool := Word.bit c.word 1

def chopping (c : ChannelControl) : Bool := Word.bit c.word 8

/-- How the transfer is cut up: 0 in one burst, 1 in blocks, 2 along a linked list. -/
def sync (c : ChannelControl) : UInt32 := Word.field c.word 9 2

def busy (c : ChannelControl) : Bool := Word.bit c.word 24

/-- Starts a burst. -/
def trigger (c : ChannelControl) : Bool := Word.bit c.word 28

def setBusy (c : ChannelControl) (b : Bool) : ChannelControl := ⟨Word.setBit c.word 24 b⟩

def setTrigger (c : ChannelControl) (b : Bool) : ChannelControl := ⟨Word.setBit c.word 28 b⟩

/-- Software wants the transfer to run. -/
def armed (c : ChannelControl) : Bool := c.busy && (c.sync != 0 || c.trigger)

end ChannelControl

structure Channel where
  madr : UInt32 := 0
  bcr : UInt32 := 0
  chcr : ChannelControl := {}
  /-- Cycles until the transfer under way is reported complete. -/
  countdown : Option UInt32 := none
deriving DecidableEq

namespace Channel

def inFlight (c : Channel) : Bool := c.countdown.isSome

/-- The word of RAM that a transfer starts at. -/
def start (c : Channel) : UInt32 := c.madr &&& 0x001ffffc

/-- The words of a block. -/
def blockLen (c : Channel) : UInt32 := c.bcr &&& 0xffff

/-- The words of a burst: one block, and the longest possible where that has no length. -/
def burst (c : Channel) : UInt32 := if c.blockLen = 0 then 0x10000 else c.blockLen

/-- The words of a transfer in blocks. -/
def blocks (c : Channel) : UInt32 := c.blockLen * (c.bcr >>> 16)

/-- The registers after a transfer in blocks. -/
def afterBlocks (c : Channel) : Channel :=
  { c with madr := (c.madr + c.blocks * 4) &&& 0x00ffffff, bcr := c.blockLen }

end Channel

/-- The interrupt register: enables in bits 16 to 22, flags in 24 to 30, and the master flag above. -/
structure Dicr where
  word : UInt32 := 0
deriving DecidableEq

namespace Dicr

/-- The flags of the channels, in place. -/
def flags (d : Dicr) : UInt32 := d.word &&& 0x7f000000

/-- The level that the master flag is to have. -/
def level (d : Dicr) : Bool := Word.bit d.word 15 || (Word.bit d.word 23 && d.flags != 0)

def master (d : Dicr) : Bool := Word.bit d.word 31

def setMaster (d : Dicr) (b : Bool) : Dicr := ⟨Word.setBit d.word 31 b⟩

/-- A flag is cleared by writing one to it; the bits below the flags are replaced. -/
def write (d : Dicr) (value : UInt32) : Dicr :=
  ⟨(d.flags &&& ~~~value) ||| (value &&& 0x00ffffff)⟩

/-- Flags the completion of a channel, where that is enabled. -/
def complete (d : Dicr) (channel : Fin 7) : Dicr :=
  if Word.bit d.word (16 + channel) then ⟨Word.setBit d.word (24 + channel) true⟩ else d

end Dicr
end R3000.Dma
