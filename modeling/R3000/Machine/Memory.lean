import R3000.Cop0.Breakpoint
import R3000.Machine

/-! # Loads, stores and fetches by virtual address -/
namespace R3000.Machine
variable {γ δ : Type}

/-- The exception that a bus error becomes. -/
def busFault (access : Access) (vaddr : UInt32) : BusError → Reported Exception
  | .unmapped addr => do
    note (.unmapped access addr)
    return access.addressError vaddr
  | .bus addr => do
    note (.busError access addr)
    return access.busException

/-- The answer of the bus, or the exception of its error. -/
def answer {α : Type} (access : Access) (vaddr : UInt32) : Except BusError α → Exec γ δ α
  | .ok a => pure a
  | .error e => do throw (← busFault access vaddr e)

def busRead (access : Access) (vaddr addr : UInt32) (w : Width) : Exec γ δ UInt32 := do
  answer access vaddr (← plain (onBus (Bus.read addr w)))

/-- Tests the data breakpoint. A hit is recorded; where it traps, the access does not take place. -/
def checkDataBreakpoint (access : Access) (vaddr : UInt32) : Exec γ δ Unit := do
  let c := (← get).cpu.regs.cop0
  if c.catches access vaddr then
    modifyCop0 (·.record (Cop0.dataHit access))
    note (.dataBreakpoint access vaddr)
    if c.dcic.tr then throw .debug

/-- Checks alignment and privilege. -/
def checkAccess (access : Access) (vaddr : UInt32) (w : Width) : Exec γ δ Unit := do
  if !w.aligned vaddr then
    note (.misaligned access vaddr)
    throw (access.addressError vaddr)
  let segment := Segment.of vaddr
  if segment.kernel && (← get).cpu.regs.cop0.status.kuC then
    note (.privileged access segment vaddr)
    throw (access.addressError vaddr)

/-- An access to the control word. -/
def onBiu (addr : UInt32) : Bool := Lane.base addr == Biu.addr

/-- The word that an isolated load sees. -/
def isolatedWord (c : Caches) (addr : UInt32) : UInt32 :=
  if c.biu.is1 then c.instr.loadIsolated addr
  else if c.biu.ds then c.data.word addr
  else 0

/-- A load of main RAM through the data cache; only whole words are filled in. -/
def cachedLoad (vaddr addr : UInt32) (w : Width) : Exec γ δ UInt32 := do
  match (← get).cpu.caches.data.lookup addr with
  | some word =>
    note (.dataCacheHit addr)
    return Lane.extract word addr w
  | none =>
    let value ← busRead .load vaddr addr w
    if w = .word then modifyCaches fun c => { c with data := c.data.fill addr value }
    return value

/-- Loads a value, right-aligned and zero-extended. -/
def load (vaddr : UInt32) (w : Width) : Exec γ δ UInt32 := do
  checkDataBreakpoint .load vaddr
  checkAccess .load vaddr w
  let segment := Segment.of vaddr
  let addr := translate vaddr
  let cpu := (← get).cpu
  let biu := cpu.caches.biu
  if segment = .kseg2 then
    if onBiu addr then return Lane.extract biu.word addr w
    else
      note (.kseg2Load addr)
      throw (Access.load.addressError vaddr)
  else if cpu.regs.cop0.status.isc then return Lane.extract (isolatedWord cpu.caches addr) addr w
  else if segment.cached && DataArray.covers addr && biu.scratchpad then
    return cpu.caches.data.read addr w
  else if segment.cached && biu.dataCache && addr < ramWindowEnd then cachedLoad vaddr addr w
  else busRead .load vaddr addr w

/-- A store into the isolated caches. -/
def isolatedStore (addr value : UInt32) (w : Width) : Exec γ δ Unit := do
  let c := (← get).cpu.caches
  if c.biu.is1 then
    if c.biu.tag then
      let instr ← c.instr.invalidateLine addr
      modifyCaches ({ · with instr })
    else
      let word := Lane.insert (c.instr.loadIsolated addr) value addr w
      modifyCaches fun c => { c with instr := c.instr.storeIsolated addr word }
  else if c.biu.ds then
    modifyCaches fun c => { c with data := c.data.storeIsolated addr value w }
  else note (.isolatedStoreDropped addr)

/-- Stores the low bits of a value, once the address has been checked. -/
def write (vaddr value : UInt32) (w : Width) : Exec γ δ Unit := do
  let segment := Segment.of vaddr
  let addr := translate vaddr
  let cpu := (← get).cpu
  let biu := cpu.caches.biu
  if segment = .kseg2 then
    if onBiu addr then
      let caches ← cpu.caches.setBiu (Lane.insert biu.word value addr w)
      modifyCaches fun _ => caches
    else
      note (.kseg2Store addr)
      throw (Access.store.addressError vaddr)
  else if cpu.regs.cop0.status.isc then isolatedStore addr value w
  else if segment.cached && DataArray.covers addr && biu.scratchpad then
    modifyCaches fun c => { c with data := c.data.write addr value w }
  else
    if segment.cached && biu.dataCache && addr < ramWindowEnd then
      modifyCaches fun c => { c with data := c.data.writeThrough addr value w }
    answer .store vaddr (← plain (onBus (Bus.write addr value w)))

def store (vaddr value : UInt32) (w : Width) : Exec γ δ Unit := do
  checkDataBreakpoint .store vaddr
  checkAccess .store vaddr w
  write vaddr value w

/-- Stores the bytes of `value` in the given pieces of the word around `vaddr`, whose other bytes
are neither written nor read. -/
def storePieces (vaddr value : UInt32) (pieces : List (UInt32 × Width)) : Exec γ δ Unit := do
  checkDataBreakpoint .store vaddr
  let base := Lane.base vaddr
  checkAccess .store base .word
  pieces.forM fun (lane, w) => write (base + lane) (value >>> (8 * lane)) w

/-- Stores the bytes of `value` in the lanes from `first` to `last` of the word around `vaddr`. -/
def storeLanes (vaddr value : UInt32) (first last : Nat) : Exec γ δ Unit :=
  storePieces vaddr value (Lane.pieces first last)

/-- Tests the execution breakpoint against the instruction about to run. -/
def checkExecutionBreakpoint (pc : UInt32) : Exec γ δ Unit := do
  let c := (← get).cpu.regs.cop0
  if c.stopsAt pc then
    modifyCop0 (·.record Cop0.executionHit)
    note (.executionBreakpoint pc)
    if c.dcic.tr then throw .debug

/-- What a fetch that passes by the instruction cache adds to the time of an instruction. -/
def uncachedFetchCost : UInt64 := 4

/-- What the refill of a line adds. -/
def refillCost : UInt64 := 4

/-- Fetches the instruction word at `pc`. -/
def fetch (pc : UInt32) : Exec γ δ UInt32 := do
  let cpu := (← get).cpu
  let segment := Segment.of pc
  if !Width.word.aligned pc || segment.kernel && cpu.regs.cop0.status.kuC then
    note (.badFetch pc)
    throw (Access.fetch.addressError pc)
  let addr := translate pc
  if segment.cached && cpu.caches.biu.is1 then
    let (fetched, instr) ←
      plain (onBus (cpu.caches.instr.fetch addr fun a => Bus.read a .word))
    modifyCaches ({ · with instr })
    let f ← answer .fetch pc fetched
    if !f.hit then plain (spend refillCost)
    return f.word
  else
    plain (spend uncachedFetchCost)
    busRead .fetch pc addr .word

end R3000.Machine
