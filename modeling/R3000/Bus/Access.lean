import R3000.Bus.IoWindow

/-! # Reads and writes by physical address -/
namespace R3000.Bus
variable {δ : Type}

/-- What a physical address belongs to. -/
inductive Region
  | ram (offset : Nat)
  | io (offset : UInt32)
  | rom (offset : Nat)
  | external
deriving DecidableEq

def ioBase : UInt32 := 0x1f801000

def Region.of (addr : UInt32) : Region :=
  if addr < ramWindowEnd then .ram (addr.toNat % ramSize)
  else if addr < ioBase then .external
  else if addr < 0x1f802000 then .io (addr - ioBase)
  else if addr < romBase then .external
  else if addr < 0x1fc80000 then .rom (addr - romBase).toNat
  else .external

def deviceRead (addr : UInt32) (w : Width) : Bus.Op δ (Except BusError UInt32) := do
  act (.deviceRead addr w)
  modifyGet fun b =>
    let (answer, outside) := b.device.read addr w b.outside
    (answer, { b with outside })

def deviceWrite (addr value : UInt32) (w : Width) : Bus.Op δ (Except BusError Unit) := do
  act (.deviceWrite addr value w)
  modifyGet fun b =>
    let (answer, outside) := b.device.write addr value w b.outside
    (answer, { b with outside })

def read (addr : UInt32) (w : Width) : Bus.Op δ (Except BusError UInt32) := do
  match Region.of addr with
  | .ram offset =>
    require (Bank.holds ramSize offset w) (.bank offset)
    return .ok ((← get).ram.read offset w)
  | .rom offset =>
    require (Bank.holds romSize offset w) (.bank offset)
    return .ok ((← get).rom.read offset w)
  | .io offset =>
    match ← ioRead offset w with
    | some value => return .ok value
    | none => deviceRead addr w
  | .external => deviceRead addr w

/-- Writes to ROM are passed over. -/
def write (addr value : UInt32) (w : Width) : Bus.Op δ (Except BusError Unit) := do
  match Region.of addr with
  | .ram offset =>
    require (Bank.holds ramSize offset w) (.bank offset)
    modify fun b => { b with ram := b.ram.write offset value w }
    return .ok ()
  | .rom _ =>
    note (.romWrite addr value)
    return .ok ()
  | .io offset =>
    if ← ioWrite offset value w then return .ok ()
    else deviceWrite addr value w
  | .external => deviceWrite addr value w

end R3000.Bus
