import R3000.Machine.Memory

/-! # Coprocessors

Number 0 is the system control coprocessor, number 2 the geometry engine. There are no others; any use
of them raises an exception. -/
namespace R3000.Machine
variable {γ δ : Type}

def gpr (r : Reg) : Exec γ δ UInt32 := return (← get).cpu.regs.gpr r

/-- The number of a register as loads in flight carry it. -/
def loadReg (r : Reg) : UInt64 := UInt64.ofNat r

/-- Writes a register at once; a load on its way to it is lost. -/
def setGpr (r : Reg) (value : UInt32) : Exec γ δ Unit := do
  modifySlots (·.cancel (loadReg r))
  modifyRegs (·.setGpr r value)

/-- Writes a register through the load delay slot. -/
def scheduleLoad (r : Reg) (value : UInt32) : Exec γ δ Unit := do
  note (.loadScheduled r value)
  modifySlots (·.schedule (loadReg r) value)

def branch (taken : Bool) (target : UInt32) : Exec γ δ Unit := do
  if taken then note (.branching target)
  modifySlots (·.setBranch taken target)

/-- The address that a load or store forms from its base and offset. -/
def effectiveAddress (rs : Reg) (imm : UInt16) : Exec γ δ UInt32 := do
  let base ← gpr rs
  let offset := Word.signExtend16 imm
  note (.effectiveAddress base offset)
  return base + offset

/-- The target of a branch at `pc`. -/
def branchTarget (pc : UInt32) (imm : UInt16) : UInt32 := pc + 4 + Word.signExtend16 imm * 4

/-- The coprocessors that there are. -/
def present (z : Cop) : Bool := z = .system || z = .geometry

/-- Raises an exception unless a coprocessor is present and enabled. -/
def requireCop (z : Cop) : Exec γ δ Unit := do
  if !(present z && (← get).cpu.regs.cop0.status.usable z) then
    note (.copUnusable z)
    throw (.copUnusable (UInt32.ofNat z))

/-- A branch on the condition of a coprocessor. Neither one drives its condition, which reads as
false. -/
def branchOnCondition (f : Register) (pc : UInt32) : Exec γ δ Unit :=
  branch (f.rt.val % 2 == 0) (branchTarget pc f.code.toUInt16)

/-- Set in `rs` for the commands of a coprocessor. -/
def isCommand (f : Register) : Bool := 16 ≤ f.rs.val

def commandCop0 (f : Register) (pc : UInt32) : Exec γ δ Unit := do
  match f.funct.val with
  | 0x01 | 0x02 | 0x06 | 0x08 => note (.tlbOperation f.funct pc)
  | 0x10 =>
    note .returnFromException
    modifyCop0 fun c => { c with status := c.status.pop }
  | _ => note (.unknownCop0Command f.funct pc)

def executeCop0 (f : Register) (pc : UInt32) : Exec γ δ Unit := do
  requireCop .system
  if isCommand f then commandCop0 f pc
  else
    match f.rs.val with
    | 0 =>
      match (← get).cpu.regs.cop0.read? f.rd with
      | some value => scheduleLoad f.rt value
      | none => note (.noCop0Register f.rd)
    | 4 =>
      let cop0 ← (← get).cpu.regs.cop0.write f.rd (← gpr f.rt)
      modifyCop0 fun _ => cop0
    | 2 | 6 => note (.noCop0Control f.code)
    | 8 => branchOnCondition f pc
    | _ => note (.unknownCopOperation 0 f.rs pc)

/-- Hands a command to the geometry engine, once it is free. -/
def commandGte (f : Register) : Exec γ δ Unit := do
  plain awaitGte
  let command := f.code &&& 0x01ffffff
  act (.gteCommand command)
  let m ← get
  let a := m.gte.execute m.gteState command
  if let some code := a.unknown then note (.unknownGteCommand code)
  modify fun m => { m with gteState := a.state }
  let clock := (← get).cpu.clock
  let gteReadyAt ← count clock.cycles a.latency.toUInt64
  plain (setClock { clock with gteReadyAt })

def executeCop2 (f : Register) (pc : UInt32) : Exec γ δ Unit := do
  requireCop .geometry
  if isCommand f then commandGte f
  else
    match f.rs.val with
    | 0 =>
      plain awaitGte
      let m ← get
      scheduleLoad f.rt (m.gte.data m.gteState f.rd)
    | 2 =>
      plain awaitGte
      let m ← get
      scheduleLoad f.rt (m.gte.control m.gteState f.rd)
    | 4 =>
      let value ← gpr f.rt
      modify fun m => { m with gteState := m.gte.setData m.gteState f.rd value }
    | 6 =>
      let value ← gpr f.rt
      modify fun m => { m with gteState := m.gte.setControl m.gteState f.rd value }
    | 8 => branchOnCondition f pc
    | _ => note (.unknownCopOperation 2 f.rs pc)

/-- A load into a coprocessor. -/
def loadCop (z : Cop) (f : Immediate) : Exec γ δ Unit := do
  requireCop z
  let vaddr ← effectiveAddress f.rs f.imm
  if z = .geometry then
    let value ← load vaddr .word
    modify fun m => { m with gteState := m.gte.setData m.gteState f.rt value }
  else note (.copLoadIgnored z)

/-- A store out of a coprocessor. -/
def storeCop (z : Cop) (f : Immediate) : Exec γ δ Unit := do
  requireCop z
  let vaddr ← effectiveAddress f.rs f.imm
  if z = .geometry then
    plain awaitGte
    let m ← get
    store vaddr (m.gte.data m.gteState f.rt) .word
  else note (.copStoreIgnored z)

end R3000.Machine
