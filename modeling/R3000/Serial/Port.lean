import R3000.Serial.Lines
import R3000.Serial.Registers
import R3000.Serial.Timer

/-! # A serial port

With every expiry of its bit clock a port shifts one bit out, lowest first, and one bit in from the
level of its data input. A character waits in the transmit buffer until the one before has gone. -/
namespace R3000.Serial

structure Port where
  status : Status := .idle
  mode : Mode := {}
  control : Control := {}
  misc : UInt16 := 0
  baud : UInt16 := 0
  /-- The character that waits to be shifted out. -/
  txData : UInt8 := 0
  txShift : UInt8 := 0
  /-- Bits of `txShift` still to be sent. -/
  txBits : UInt8 := 0
  /-- The last character received. -/
  rxData : UInt8 := 0
  rxShift : UInt8 := 0
  /-- Bits of `rxShift` received so far. -/
  rxBits : UInt8 := 0
  inputs : Inputs := {}
  outputs : Lines := {}
  timer : Timer := {}
deriving DecidableEq

/-- What an operation leaves: the port, the levels that it drove, in order, and how often it asked
for an interrupt. -/
structure Reaction where
  port : Port
  driven : List Lines := []
  raises : Nat := 0

namespace Port

/-- Processor cycles per bit; zero where the clock is stopped. -/
def period (p : Port) : UInt32 := p.mode.multiplier * p.baud.toUInt32

def shifting (p : Port) : Bool := p.txBits != 0

def queued (p : Port) : Bool := !p.status.has Status.txReady

/-- The 32-bit view of a register word. -/
def word (p : Port) (index : UInt32) : UInt32 :=
  match index.toNat with
  | 0 => p.rxData.toUInt32
  | 1 => p.status.bits
  | 2 => p.mode.word.toUInt32 ||| p.control.word.toUInt32 <<< 16
  | _ => p.misc.toUInt32 ||| p.baud.toUInt32 <<< 16

/-- Sets the outputs; only a change is driven. -/
def drive (p : Port) (lines : Lines) : Reaction :=
  if lines = p.outputs then ⟨p, [], 0⟩ else ⟨{ p with outputs := lines }, [lines], 0⟩

/-- Sets the bit clock going where there is something to send. -/
def kick (p : Port) : Reported Port := do
  if p.control.txEnable ∧ (p.queued ∨ p.shifting) then
    if p.period = 0 then note .bitClockStopped
    return { p with timer := p.timer.start p.period }
  else return p

def transmit (p : Port) (value : UInt8) : Reported Port := do
  if p.queued then note .transmitOverwritten
  { p with
    txData := value
    status := (p.status.set Status.txReady false).set Status.txEmpty false }.kick

/-- Reading the data register takes the character that waits there. -/
def receive (p : Port) : Port := { p with status := p.status.set Status.rxReady false }

/-- Follows a change of the mode or the baud register. -/
def retime (p : Port) : Port := { p with timer := p.timer.setPeriod p.period }

def writeMode (p : Port) (value : UInt16) : Port := { p with mode := ⟨value⟩ }.retime

def writeBaud (p : Port) (value : UInt16) : Port := { p with baud := value }.retime

/-- Shows the levels of the inputs in the status register. -/
def syncInputs (p : Port) : Port :=
  { p with
    status := (p.status.set Status.dsr (p.inputs.has Inputs.dsr)).set Status.cts
      (p.inputs.has Inputs.cts) }

/-- The idle port on the same wires; its outputs go low. -/
def reset (p : Port) : Reaction :=
  ({ inputs := p.inputs, outputs := p.outputs : Port }.syncInputs).drive {}

/-- Clears what an acknowledgement clears. -/
def acknowledge (p : Port) : Port :=
  { p with
    status := ((p.status.set Status.irq false).set Status.overrun false).set Status.parityError
      false }

def writeControl (p : Port) (value : UInt16) : Reported Reaction := do
  let control : Control := ⟨value⟩
  if control.reset then
    note .serialReset
    return p.reset
  else
    let p := if control.iack then p.acknowledge else p
    let p := { p with control := control.clearIack }
    let r := p.drive ((p.outputs.set Lines.dtr control.dtr).set Lines.rts control.rts)
    let p := r.port
    if control.txEnable then return { r with port := ← p.kick }
    else if p.shifting then return r
    else return { r with port := { p with timer := p.timer.stop } }

/-- Asks for an interrupt. -/
def interrupt (p : Port) : Port := { p with status := p.status.set Status.irq true }

/-- Presents input levels; a rising DSR can interrupt. -/
def input (p : Port) (mask levels : UInt32) : Reaction :=
  let q := { p with inputs := p.inputs.merge mask levels }.syncInputs
  let rose := !p.inputs.has Inputs.dsr && q.inputs.has Inputs.dsr
  if rose && q.control.dsrInterrupt then ⟨q.interrupt, [], 1⟩ else ⟨q, [], 0⟩

/-- The port with a character to shift: the one at hand, else the one that waits, if it may go. -/
def loadChar (p : Port) : Option Port :=
  if p.shifting then some p
  else if p.queued && p.control.txEnable then
    some
      { p with
        txShift := p.txData
        txBits := p.mode.bitsPerChar
        status := p.status.set Status.txReady true }
  else none

/-- The outputs while the lowest bit of the shift register is sent. -/
def bitLines (p : Port) : Lines :=
  (p.outputs.set Lines.data (Word.bit p.txShift.toUInt32 0)).toggle Lines.clock

/-- The receive register with one more bit. -/
def sampled (p : Port) : UInt8 :=
  if p.inputs.has Inputs.data then p.rxShift ||| (1 <<< p.rxBits) else p.rxShift

/-- Shifts one bit out and one bit in. -/
def shiftBit (p : Port) : Reaction :=
  let r := { p with txShift := p.txShift >>> 1, txBits := p.txBits - 1 }.drive p.bitLines
  { r with port := { r.port with rxShift := r.port.sampled, rxBits := r.port.rxBits + 1 } }

/-- A whole character has gone out, and one has come in. -/
def finishChar (p : Port) : Port :=
  let status := if p.status.has Status.rxReady then p.status.set Status.overrun true else p.status
  let status := status.set Status.rxReady true
  { p with
    rxData := p.rxShift
    rxShift := 0
    rxBits := 0
    status := if p.queued then status else status.set Status.txEmpty true }

/-- One expiry of the bit clock, and whether there is more to send after it. -/
def tick (p : Port) : Reported (Reaction × Bool) := do
  match p.loadChar with
  | none => return (⟨p, [], 0⟩, false)
  | some p =>
    require (p.rxBits < 8 || !p.inputs.has Inputs.data) .receiveShift
    require (p.rxBits < 255) .receiveCount
    let r := p.shiftBit
    if r.port.shifting then return (r, true)
    else
      let q := r.port.finishChar
      if q.control.rxInterrupt || q.control.txInterrupt then
        return ({ r with port := q.interrupt, raises := 1 }, q.queued)
      else return ({ r with port := q }, q.queued)

/-- Up to `n` expiries. The clock stops when there is nothing left to send. -/
def ticks : Nat → Port → Reported Reaction
  | 0, p => return ⟨p, [], 0⟩
  | n + 1, p => do
    let (r, more) ← p.tick
    if more then
      let s ← ticks n r.port
      return ⟨s.port, r.driven ++ s.driven, r.raises + s.raises⟩
    else return { r with port := { r.port with timer := r.port.timer.stop } }

/-- Lets cycles pass. -/
def update (p : Port) (cycles : UInt32) : Reported Reaction := do
  require (p.timer.reloads cycles) .period
  require (p.timer.countable cycles) .expiries
  ticks (p.timer.expiries cycles).toNat { p with timer := p.timer.advance cycles }

end Port
end R3000.Serial
