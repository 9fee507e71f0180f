import R3000.Dma.OrderingTable
import R3000.Dma.Registers
import R3000.Report

/-! # The DMA controller

It holds the registers of seven channels, and for each channel the peers that move its data: a
reader puts words into RAM, a writer takes words out of it. -/
namespace R3000.Dma

/-- Puts `len` words into RAM from `addr` on. -/
abbrev Reader (δ : Type) := (addr len : UInt32) → MainRam → δ → MainRam × δ

/-- Takes `len` words of RAM from `addr` on. -/
abbrev Writer (δ : Type) := (addr len : UInt32) → MainRam → δ → δ

/-- The channel that clears ordering tables. -/
def otc : Fin 7 := 6

structure Controller (δ : Type) where
  channels : Vector Channel 7 := Vector.replicate 7 {}
  /-- The enables of the channels. -/
  dpcr : UInt32 := 0x07654321
  dicr : Dicr := {}
  /-- The cycles that a transfer takes for each word. -/
  wordCycles : UInt32 := 1
  readers : Vector (Option (Reader δ)) 7 := Vector.replicate 7 none
  writers : Vector (Option (Writer δ)) 7 := Vector.replicate 7 none

namespace Controller
variable {δ : Type}

def channel (c : Controller δ) (i : Fin 7) : Channel := c.channels[i]

/-- The reader bound to a channel. -/
def reader? (c : Controller δ) (i : Fin 7) : Option (Reader δ) := c.readers[i]

/-- The writer bound to a channel. -/
def writer? (c : Controller δ) (i : Fin 7) : Option (Writer δ) := c.writers[i]

def setChannel (c : Controller δ) (i : Fin 7) (ch : Channel) : Controller δ :=
  { c with channels := c.channels.set i ch }

def enabled (c : Controller δ) (i : Fin 7) : Bool := Word.bit c.dpcr (3 + 4 * i)

/-- Binds the reader of a channel. The first one stays. -/
def bindReader (c : Controller δ) (channel : Nat) (r : Reader δ) : Reported (Controller δ) := do
  if h : channel < 7 then
    if c.readers[channel].isSome then
      note (.peerBound channel .intoRam)
      return c
    else return { c with readers := c.readers.set channel (some r) }
  else
    note (.noChannel channel)
    return c

/-- Binds the writer of a channel. The first one stays. -/
def bindWriter (c : Controller δ) (channel : Nat) (w : Writer δ) : Reported (Controller δ) := do
  if h : channel < 7 then
    if c.writers[channel].isSome then
      note (.peerBound channel .outOfRam)
      return c
    else return { c with writers := c.writers.set channel (some w) }
  else
    note (.noChannel channel)
    return c

/-- Reads the register at a word-aligned offset. -/
def read (c : Controller δ) (offset : UInt32) : Reported UInt32 := do
  if offset = 0x70 then return c.dpcr
  else if offset = 0x74 then return c.dicr.word
  else if 0x78 ≤ offset then
    note (.unknownDmaRead offset)
    return 0
  else
    let i := (offset >>> 4).toNat
    if h : i < 7 then
      let ch := c.channels[i]
      match (offset &&& 0xc).toNat with
      | 0 => return ch.madr
      | 4 => return ch.bcr
      | 8 => return ch.chcr.word
      | _ =>
        note (.unusedDmaRead i (offset &&& 0xf))
        return 0
    else
      fault (.channel offset)
      return 0

/-- A channel's registers after a write. Of the control of the table channel only the start bits can
be written; a table always grows downwards. -/
def writeChannel (i : Fin 7) (ch : Channel) (offset value : UInt32) : Reported Channel := do
  match (offset &&& 0xc).toNat with
  | 0 => return { ch with madr := value &&& 0x00ffffff }
  | 4 => return { ch with bcr := value }
  | 8 =>
    return { ch with chcr := ⟨if i = otc then (value &&& 0x51000000) ||| 2 else value⟩ }
  | _ =>
    note (.unusedDmaWrite i (offset &&& 0xf))
    return ch

/-- The registers at power-on. Bindings stay. -/
def reset (c : Controller δ) : Controller δ :=
  { wordCycles := c.wordCycles, readers := c.readers, writers := c.writers }

/-- Takes over registers. Bindings stay. -/
def restore (c : Controller δ) (channels : Vector Channel 7) (dpcr : UInt32) (dicr : Dicr)
    (wordCycles : UInt32) : Controller δ :=
  { c with channels, dpcr, dicr, wordCycles }

end Controller
end R3000.Dma
