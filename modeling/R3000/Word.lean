/-! # Bits, fields and sign extension of machine words -/
namespace R3000.Word

/-- Bit `i` of a word. -/
def bit (w : UInt32) (i : Nat) : Bool := w.toNat.testBit i

/-- The word whose only set bit is bit `i`. -/
def single (i : Nat) : UInt32 := 1 <<< UInt32.ofNat i

def setBit (w : UInt32) (i : Nat) (b : Bool) : UInt32 :=
  if b then w ||| single i else w &&& ~~~single i

/-- The word whose low `width` bits are set, for widths below 32. -/
def ones (width : Nat) : UInt32 := single width - 1

/-- The `width` bits from bit `lo` up, right-aligned. -/
def field (w : UInt32) (lo width : Nat) : UInt32 := (w >>> UInt32.ofNat lo) &&& ones width

/-- Replaces the `width` bits from bit `lo` up; what does not fit is dropped. -/
def setField (w : UInt32) (lo width : Nat) (v : UInt32) : UInt32 :=
  let mask := ones width <<< UInt32.ofNat lo
  (w &&& ~~~mask) ||| ((v <<< UInt32.ofNat lo) &&& mask)

def signExtend8 (b : UInt8) : UInt32 := b.toInt8.toInt32.toUInt32

def signExtend16 (h : UInt16) : UInt32 := h.toInt16.toInt32.toUInt32

/-- The two's-complement reading of a word. -/
def signed (w : UInt32) : Int := w.toInt32.toInt

/-- The sum of two words read as signed, if it fits. -/
def addSigned? (a b : UInt32) : Option UInt32 :=
  if -0x80000000 ≤ signed a + signed b ∧ signed a + signed b < 0x80000000 then some (a + b) else none

/-- The difference of two words read as signed, if it fits. -/
def subSigned? (a b : UInt32) : Option UInt32 :=
  if -0x80000000 ≤ signed a - signed b ∧ signed a - signed b < 0x80000000 then some (a - b) else none

/-- The number 1 for true and 0 for false. -/
def ofBool (b : Bool) : UInt32 := if b then 1 else 0

/-- The largest word. -/
def max : UInt32 := 0xffffffff

/-- The product of two words, or the largest word where it does not fit. -/
def satMul (a b : UInt32) : UInt32 :=
  if a.toNat * b.toNat < 0x100000000 then a * b else max

example : signExtend8 0x80 = 0xffffff80 ∧ signExtend16 0x1234 = 0x1234 := by decide
example : satMul 0x10000 0x10000 = 0xffffffff ∧ satMul 3 5 = 15 := by decide

end R3000.Word
