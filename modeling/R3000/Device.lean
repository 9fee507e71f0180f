import R3000.Address

/-! # Devices: what answers where the processor's own parts do not -/
namespace R3000

inductive BusError
  /-- Nothing claims the physical address. -/
  | unmapped (addr : UInt32)
  /-- A device claims the address, and signals an error. -/
  | bus (addr : UInt32)
deriving DecidableEq

/-- A device with states in `δ`. Values are right-aligned, whatever lane is accessed. -/
structure Device (δ : Type) where
  read : UInt32 → Width → δ → Except BusError UInt32 × δ
  write : UInt32 → UInt32 → Width → δ → Except BusError Unit × δ

/-- A device that claims nothing. -/
def Device.absent (δ : Type) : Device δ where
  read addr _ s := (.error (.unmapped addr), s)
  write addr _ _ s := (.error (.unmapped addr), s)

end R3000
