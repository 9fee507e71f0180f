import R3000.Machine.Execute

/-! # Steps and runs

A step samples the interrupt line, moves into the delay slot of the instruction before, and executes
one instruction or takes one exception in its place; then the devices are given the cycles that went
by. A run is as many steps as its budget of cycles needs. -/
namespace R3000.Machine
variable {γ δ : Type}

/-- The time of every instruction. -/
def instructionCost : UInt64 := 1

/-- Shows the interrupt line in the cause register. -/
def sampleLine : Run γ δ Unit := modify fun m =>
  let line := m.bus.int.line
  { m with cpu := { m.cpu with regs := { m.cpu.regs with cop0 := m.cpu.regs.cop0.sample line } } }

/-- Moves on to the next instruction: the target of a taken branch comes after its delay slot. Gives
the address of the current one. -/
def advance : Run γ δ UInt32 := do
  let cpu := (← get).cpu
  let pc := cpu.regs.pc
  let next := cpu.slots.branch.target?.getD (pc + 4)
  modifyCpu fun c => { c with slots := c.slots.enter, regs := { c.regs with pc := next } }
  return pc

/-- Lands the load that is due and moves the newly issued one into the delay slot. -/
def retire : Run γ δ Unit := do
  let cpu := (← get).cpu
  let (slots, regs) ← cpu.slots.retire cpu.regs
  modifyCpu fun c => { c with slots, regs }

/-- Enters the handler of an exception of the instruction at `pc`. -/
def enterException (e : Exception) (pc : UInt32) : Run γ δ Unit := do
  let cpu := (← get).cpu
  let cop0 := cpu.regs.cop0.enter e pc cpu.regs.pc cpu.slots.inSlot cpu.slots.taken
  let vector := e.handler.address cop0.status.bev
  note (.exception e.name cop0.epc cpu.slots.inSlot vector)
  modifyCpu fun c =>
    { c with slots := c.slots.leave, regs := { c.regs with pc := vector, cop0 } }

/-- Takes an exception before the instruction at `pc` executes. -/
def abort (e : Exception) (pc : UInt32) : Run γ δ Unit := do
  retire
  enterException e pc

/-- Executes the instruction that a word encodes; a word that encodes none does nothing. -/
def executeWord (word pc : UInt32) : Exec γ δ Unit := do
  match Instruction.decode word with
  | some i =>
    note (.executing pc i)
    execute i pc
  | none => note (.malformed word pc)

/-- Gets the instruction word at `pc`, unless a breakpoint or a fault is in the way. -/
def obtain (pc : UInt32) : Exec γ δ UInt32 := do
  checkExecutionBreakpoint pc
  fetch pc

/-- Executes a word that has been fetched, and retires it. -/
def complete (word pc : UInt32) : Run γ δ Unit := do
  let outcome ← (executeWord word pc).run
  retire
  let clock := (← get).cpu.clock
  setClock { clock with retired := ← count clock.retired 1 }
  match outcome with
  | .ok _ => return ()
  | .error e => enterException e pc

/-- One instruction, or one exception in its place; the devices stand still. -/
def step : Run γ δ Unit := do
  sampleLine
  let pc ← advance
  spend instructionCost
  let cop0 := (← get).cpu.regs.cop0
  if cop0.interrupted then
    note (.interrupt pc cop0.cause.ip)
    abort .interrupt pc
  else
    match ← (obtain pc).run with
    | .error e => abort e pc
    | .ok word => complete word pc

/-- The cycles that devices are given for those that went by: as many as fit a word. -/
def deviceCycles (elapsed : UInt64) : UInt32 :=
  if elapsed.toNat < 0x100000000 then elapsed.toUInt32 else Word.max

/-- A step, and then its cycles for the devices. Gives the cycles that went by. -/
def next : Run γ δ UInt64 := do
  let start := (← get).cpu.clock.cycles
  step
  let elapsed := (← get).cpu.clock.cycles - start
  onBus (Bus.update (deviceCycles elapsed))
  return elapsed

/-- Steps until at least `budget` cycles have gone by, `elapsed` of them before; `seen` holds the
records of the steps so far, latest first. -/
def runFrom : Nat → UInt64 → UInt64 → Machine γ δ → List Record →
    Reported (UInt64 × Machine γ δ)
  | 0, _, elapsed, m, seen => ⟨(elapsed, m), seen.foldl (fun r s => s ++ r) {}⟩
  | fuel + 1, budget, elapsed, m, seen =>
    if elapsed < budget then
      let r := next m
      runFrom fuel budget (elapsed + r.value.1) r.value.2 (r.record :: seen)
    else ⟨(elapsed, m), seen.foldl (fun r s => s ++ r) {}⟩

/-- Steps until at least `budget` cycles have gone by. Each step takes at least one, so that no more
steps than cycles are needed. Gives the cycles that went by. -/
def run (budget : UInt64) : Run γ δ UInt64 := fun m => runFrom budget.toNat budget 0 m []

end R3000.Machine
