import R3000.Width
import R3000.Serial.Lines

/-! # Acts: what the processor does to the world outside it, in order -/
namespace R3000

inductive Act
  | deviceRead (addr : UInt32) (width : Width)
  | deviceWrite (addr value : UInt32) (width : Width)
  | gteCommand (command : UInt32)
  /-- The listener of a serial port is told of new line levels. -/
  | lines (port : Fin 2) (lines : Serial.Lines)
  /-- The reader of a DMA channel is asked for `len` words to put at `addr`. -/
  | dmaRead (channel : Fin 7) (addr len : UInt32)
  /-- The writer of a DMA channel is handed `len` words from `addr` on. -/
  | dmaWrite (channel : Fin 7) (addr len : UInt32)
deriving DecidableEq

end R3000
