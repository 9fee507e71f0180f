import R3000.Report

/-! # The interrupt controller

Devices raise sources, software acknowledges and enables them. The line to the processor is high
exactly while a pending source is enabled. -/
namespace R3000.Interrupt

namespace Source

def vblank : UInt32 := 0x001
def gpu : UInt32 := 0x002
def cdrom : UInt32 := 0x004
def dma : UInt32 := 0x008
def timer0 : UInt32 := 0x010
def timer1 : UInt32 := 0x020
def timer2 : UInt32 := 0x040
def sio0 : UInt32 := 0x080
def sio1 : UInt32 := 0x100
def spu : UInt32 := 0x200
def ext : UInt32 := 0x400

/-- Every source that there is. -/
def all : UInt32 := 0x7ff

end Source

structure Controller where
  pending : UInt32 := 0
  enabled : UInt32 := 0
  line : Bool := false
deriving DecidableEq

namespace Controller

/-- Some pending source is enabled. -/
def asserted (c : Controller) : Bool := c.pending &&& c.enabled != 0

/-- Drives the line. -/
def refresh (c : Controller) : Reported Controller := do
  if c.asserted ≠ c.line then note (.interruptLine c.asserted)
  return { c with line := c.asserted }

def raise (c : Controller) (sources : UInt32) : Reported Controller := do
  note (.raising sources)
  { c with pending := c.pending ||| sources }.refresh

/-- Raises the same sources several times. -/
def raiseTimes (c : Controller) (sources : UInt32) : Nat → Reported Controller
  | 0 => pure c
  | n + 1 => do (← c.raise sources).raiseTimes sources n

/-- The register with a number: pending sources, then enabled ones. Others read as zero. -/
def read (c : Controller) (index : Nat) : UInt32 :=
  match index with
  | 0 => c.pending
  | 1 => c.enabled
  | _ => 0

/-- Acknowledges sources: of those in `access`, a pending one is cleared if it is enabled and written
as zero. -/
def acknowledge (c : Controller) (value access : UInt32) : Controller :=
  { c with
    pending := (c.pending &&& ~~~access) ||| (c.pending &&& access &&& (value ||| ~~~c.enabled)) }

/-- Replaces the enables that `access` covers. -/
def enable (c : Controller) (value access : UInt32) : Controller :=
  { c with enabled := (c.enabled &&& ~~~access) ||| (value &&& access) }

/-- Writes the bits of a register that `access` covers. -/
def write (c : Controller) (index : Nat) (value access : UInt32) : Reported Controller := do
  match index with
  | 0 => (c.acknowledge value access).refresh
  | 1 =>
    let c := c.enable value access
    if c.enabled &&& ~~~Source.all ≠ 0 then note (.undocumentedSources c.enabled)
    c.refresh
  | _ =>
    note (.noInterruptRegister index)
    c.refresh

end Controller
end R3000.Interrupt
