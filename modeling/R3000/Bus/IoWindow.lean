import R3000.Bus.Transfer

/-! # The I/O window: the registers of the parts around the processor -/
namespace R3000.Bus
variable {δ : Type}

/-- The registers that an offset into the window belongs to. -/
inductive Group
  | memoryControl (index : Nat)
  | serial (port : Nat) (offset : UInt32)
  | ramSize
  | interrupt (index : Nat)
  | dma (offset : UInt32)
deriving DecidableEq

/-- The registers at an offset into the window, if any are there. -/
def Group.of? (offset : UInt32) : Option Group :=
  if offset < 0x24 then some (.memoryControl (offset >>> 2).toNat)
  else if offset < 0x40 then none
  else if offset < 0x60 then some (.serial ((offset - 0x40) >>> 4).toNat (offset &&& 0xf))
  else if offset < 0x64 then some .ramSize
  else if offset < 0x70 then none
  else if offset < 0x78 then some (.interrupt ((offset - 0x70) >>> 2).toNat)
  else if offset < 0x80 then none
  else if offset < 0x100 then some (.dma (offset - 0x80))
  else none

def readGroup (offset : UInt32) (w : Width) : Group → Bus.Op δ UInt32
  | .memoryControl index => return Lane.extract ((← get).memoryControl.read index) offset w
  | .ramSize => return Lane.extract (← get).memoryControl.ramSize offset w
  | .interrupt index => return Lane.extract ((← get).int.read index) offset w
  | .serial port reg => serialRead port reg w
  | .dma reg => return Lane.extract (← dmaRead (Lane.base reg)) reg w

/-- Reads the window. Nothing is read where there are no registers. -/
def ioRead (offset : UInt32) (w : Width) : Bus.Op δ (Option UInt32) := do
  match Group.of? offset with
  | none => return none
  | some g =>
    let value ← readGroup offset w g
    note (.ioRead offset value)
    return some value

/-- Writes a lane of a register: the rest of its word is written back as it reads, except that the
interrupt registers are told which bits are meant. -/
def writeGroup (offset value : UInt32) (w : Width) : Group → Bus.Op δ Unit
  | .memoryControl index => do
    let b ← get
    let word := Lane.insert (b.memoryControl.read index) value offset w
    set { b with memoryControl := ← b.memoryControl.write index word }
  | .ramSize => modify fun b =>
    let word := Lane.insert b.memoryControl.ramSize value offset w
    { b with memoryControl := { b.memoryControl with ramSize := word } }
  | .interrupt index => do
    let b ← get
    set { b with int := ← b.int.write index (value <<< Lane.shift offset w) (Lane.mask offset w) }
  | .serial port reg => serialWrite port reg value w
  | .dma reg => do
    dmaWrite (Lane.base reg) (Lane.insert (← dmaRead (Lane.base reg)) value reg w)

/-- Writes the window. Gives whether there are registers to write. -/
def ioWrite (offset value : UInt32) (w : Width) : Bus.Op δ Bool := do
  match Group.of? offset with
  | none => return false
  | some g =>
    note (.ioWrite offset value)
    writeGroup offset value w g
    return true

/-- Lets cycles pass: transfers complete before serial bits are shifted. -/
def update (cycles : UInt32) : Bus.Op δ Unit := do
  if cycles ≠ 0 then
    dmaUpdate cycles
    serialUpdate cycles

end R3000.Bus
