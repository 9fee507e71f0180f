import R3000.Interrupt
import R3000.Serial.Port
import R3000.Word.Lane

/-! # The serial controller: two ports and the listeners at the ends of their wires -/
namespace R3000.Serial

/-- Told of every change of a port's outputs. -/
abbrev Listener (δ : Type) := Lines → δ → δ

structure Controller (δ : Type) where
  ports : Vector Port 2 := Vector.replicate 2 {}
  listeners : Vector (Option (Listener δ)) 2 := Vector.replicate 2 none

/-- The interrupt source of each port. -/
def source (port : Fin 2) : UInt32 := if port = 0 then Interrupt.Source.sio0 else Interrupt.Source.sio1

namespace Controller
variable {δ : Type}

/-- Binds the listener of a port. The first one stays. -/
def listen (c : Controller δ) (port : Nat) (l : Listener δ) : Reported (Controller δ) := do
  if h : port < 2 then
    if c.listeners[port].isSome then
      note (.listenerBound port)
      return c
    else return { c with listeners := c.listeners.set port (some l) }
  else
    note (.noPort port)
    return c

def port (c : Controller δ) (i : Fin 2) : Port := c.ports[i]

/-- The controller with another port. -/
def setPort (c : Controller δ) (i : Fin 2) (p : Port) : Controller δ :=
  { c with ports := c.ports.set i p }

@[simp] theorem port_setPort_self (c : Controller δ) (i : Fin 2) (p : Port) : (c.setPort i p).port i = p :=
  Vector.getElem_set_self i.isLt

theorem port_setPort_of_ne (c : Controller δ) {i j : Fin 2} (h : i ≠ j) (p : Port) :
    (c.setPort i p).port j = c.port j :=
  Vector.getElem_set_ne i.isLt j.isLt (Fin.val_ne_of_ne h)

/-- Tells the listener of a port, if there is one, of levels in order. -/
def tell (c : Controller δ) (port : Fin 2) (driven : List Lines) (outside : δ) : Reported δ :=
  match c.listeners[port] with
  | none => pure outside
  | some l =>
    driven.foldlM (fun o lines => do
      act (.lines port lines)
      return l lines o) outside

/-- Carries a reaction of a port out to its listener and to the interrupt controller. -/
def settle (c : Controller δ) (port : Fin 2) (r : Reaction) (int : Interrupt.Controller)
    (outside : δ) : Reported (Controller δ × Interrupt.Controller × δ) := do
  let outside ← c.tell port r.driven outside
  let int ← int.raiseTimes (source port) r.raises
  return ({ c with ports := c.ports.set port r.port }, int, outside)

/-- Presents input levels on a port. Only the wires in `mask` change. -/
def input (c : Controller δ) (port : Nat) (mask levels : UInt32) (int : Interrupt.Controller)
    (outside : δ) : Reported (Controller δ × Interrupt.Controller × δ) := do
  if h : port < 2 then c.settle ⟨port, h⟩ (c.ports[port].input mask levels) int outside
  else
    note (.noPort port)
    return (c, int, outside)

/-- Reads a port's register. The data register gives the character that waits, and takes it. -/
def read (c : Controller δ) (port : Nat) (offset : UInt32) (w : Width) :
    Reported (UInt32 × Controller δ) := do
  if h : port < 2 then
    let p := c.ports[port]
    if offset = 0 then
      note (.received p.rxData.toUInt32)
      return (p.rxData.toUInt32, { c with ports := c.ports.set port p.receive })
    else return (Lane.extract (p.word (offset >>> 2)) offset w, c)
  else return (0, c)

/-- Writes a port's register; a lane of a word writes the registers that it touches. -/
def writePort (p : Port) (offset value : UInt32) (w : Width) : Reported Reaction := do
  let index := offset >>> 2
  let word := Lane.insert (p.word index) value offset w
  let mask := Lane.mask offset w
  let low := mask &&& 0xffff ≠ 0
  let high := mask >>> 16 ≠ 0
  if offset = 0 then return ⟨← p.transmit value.toUInt8, [], 0⟩
  else if index = 2 then
    let p := if low then p.writeMode word.toUInt16 else p
    if high then p.writeControl (word >>> 16).toUInt16 else return ⟨p, [], 0⟩
  else if index = 3 then
    let p := if low then { p with misc := word.toUInt16 } else p
    return ⟨if high then p.writeBaud (word >>> 16).toUInt16 else p, [], 0⟩
  else
    note (.readOnlySerial offset)
    return ⟨p, [], 0⟩

def write (c : Controller δ) (port : Nat) (offset value : UInt32) (w : Width)
    (int : Interrupt.Controller) (outside : δ) :
    Reported (Controller δ × Interrupt.Controller × δ) := do
  if h : port < 2 then
    c.settle ⟨port, h⟩ (← writePort c.ports[port] offset value w) int outside
  else return (c, int, outside)

/-- Lets cycles pass on one port. -/
def updatePort (c : Controller δ) (port : Fin 2) (cycles : UInt32) (int : Interrupt.Controller)
    (outside : δ) : Reported (Controller δ × Interrupt.Controller × δ) := do
  c.settle port (← c.ports[port].update cycles) int outside

/-- Lets cycles pass on both ports, in order. -/
def update (c : Controller δ) (cycles : UInt32) (int : Interrupt.Controller) (outside : δ) :
    Reported (Controller δ × Interrupt.Controller × δ) := do
  let (c, int, outside) ← c.updatePort 0 cycles int outside
  c.updatePort 1 cycles int outside

/-- Takes over the state of ports. Listeners stay. -/
def restore (c : Controller δ) (ports : Vector Port 2) : Controller δ := { c with ports }

/-- Every port at power-on; nobody is told. Listeners stay. -/
def reset (c : Controller δ) : Controller δ := c.restore (Vector.replicate 2 {})

end Controller
end R3000.Serial
