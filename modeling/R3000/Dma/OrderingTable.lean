import R3000.Dma.LinkedList

/-! # Ordering tables: lists of empty nodes, each pointing to the word below it -/
namespace R3000.Dma

/-- Writes a table of `len` entries downwards from `addr`. -/
def clearTable : Nat → UInt32 → MainRam → MainRam
  | 0, _, ram => ram
  | n + 1, addr, ram =>
    let next := if n = 0 then endOfList else (addr - 4) &&& 0x001ffffc
    clearTable n next (ram.setWord addr next)

end R3000.Dma
