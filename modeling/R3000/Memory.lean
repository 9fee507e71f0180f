import R3000.Width

/-! # Memory banks: bytes at offsets, words in little-endian order -/
namespace R3000

structure Bank (n : Nat) where
  bytes : ByteArray
  size_eq : bytes.size = n

namespace Bank
variable {n : Nat}

def replicate (n : Nat) (b : UInt8) : Bank n := ⟨⟨Array.replicate n b⟩, Array.size_replicate⟩

/-- A bank of these bytes, if there are as many as it holds. -/
def ofBytes? (n : Nat) (bytes : ByteArray) : Option (Bank n) :=
  if h : bytes.size = n then some ⟨bytes, h⟩ else none

/-- The byte at an offset; zero past the end. -/
def byte (b : Bank n) (i : Nat) : UInt8 :=
  if h : i < n then b.bytes.get i (by rw [b.size_eq]; exact h) else 0

/-- Nothing is kept past the end. -/
def setByte (b : Bank n) (i : Nat) (v : UInt8) : Bank n :=
  if h : i < n then
    ⟨b.bytes.set i v (by rw [b.size_eq]; exact h), by
      rw [ByteArray.size, ByteArray.set, Array.size_set]; exact b.size_eq⟩
  else b

def toList (b : Bank n) : List UInt8 := b.bytes.data.toList

/-- An access of this width at this offset stays within the bank. -/
def holds (n offset : Nat) (w : Width) : Bool := offset + w.bytes ≤ n

def read (b : Bank n) (offset : Nat) (w : Width) : UInt32 :=
  match w with
  | .byte => (b.byte offset).toUInt32
  | .half => (b.byte offset).toUInt32 ||| (b.byte (offset + 1)).toUInt32 <<< 8
  | .word =>
    (b.byte offset).toUInt32 ||| (b.byte (offset + 1)).toUInt32 <<< 8
      ||| (b.byte (offset + 2)).toUInt32 <<< 16 ||| (b.byte (offset + 3)).toUInt32 <<< 24

def write (b : Bank n) (offset : Nat) (value : UInt32) (w : Width) : Bank n :=
  match w with
  | .byte => b.setByte offset value.toUInt8
  | .half => (b.setByte offset value.toUInt8).setByte (offset + 1) (value >>> 8).toUInt8
  | .word =>
    (((b.setByte offset value.toUInt8).setByte (offset + 1) (value >>> 8).toUInt8).setByte
      (offset + 2) (value >>> 16).toUInt8).setByte (offset + 3) (value >>> 24).toUInt8

theorem get_set (bytes : ByteArray) (i j : Nat) (v : UInt8) (hi : i < bytes.size)
    (hj : j < bytes.size) (hj' : j < (bytes.set i v hi).size) :
    (bytes.set i v hi).get j hj' = if i = j then v else bytes.get j hj :=
  Array.getElem_set hi hj'

theorem byte_setByte (b : Bank n) (i j : Nat) (v : UInt8) :
    (b.setByte i v).byte j = if j = i ∧ i < n then v else b.byte j := by
  by_cases h : i < n
  · rw [setByte, dif_pos h]
    by_cases hj : j < n
    · have hb : j < b.bytes.size := b.size_eq.symm ▸ hj
      rw [byte, dif_pos hj, byte, dif_pos hj]
      refine (get_set _ _ _ _ _ hb _).trans ?_
      by_cases hij : i = j
      · rw [if_pos hij, if_pos ⟨hij.symm, h⟩]
      · rw [if_neg hij, if_neg fun e => hij e.1.symm]
    · have hij : ¬(j = i ∧ i < n) := fun e => hj (e.1 ▸ e.2)
      rw [byte, dif_neg hj, byte, dif_neg hj, if_neg hij]
  · rw [setByte, dif_neg h, if_neg fun e => h e.2]

end Bank

/-- Main RAM: 2 MiB at address zero. -/
def ramSize : Nat := 0x200000

/-- RAM repeats up to this address. -/
def ramWindowEnd : UInt32 := 0x00800000

abbrev MainRam := Bank ramSize

/-- The boot ROM: 512 KiB. -/
def romSize : Nat := 0x80000

def romBase : UInt32 := 0x1fc00000

abbrev Rom := Bank romSize

/-- RAM at power-on. -/
def MainRam.zero : MainRam := .replicate ramSize 0

def Rom.zero : Rom := .replicate romSize 0

namespace MainRam

/-- The offset of the aligned word that an address falls into, RAM repeating for ever. -/
def wordOffset (addr : UInt32) : Nat := (addr.toNat % ramSize) / 4 * 4

def word (ram : MainRam) (addr : UInt32) : UInt32 := ram.read (wordOffset addr) .word

def setWord (ram : MainRam) (addr value : UInt32) : MainRam :=
  ram.write (wordOffset addr) value .word

end MainRam

/-- A ROM image may be shorter than the ROM; the rest is zero. -/
def Rom.ofImage? (image : ByteArray) : Option Rom :=
  Bank.ofBytes? romSize ⟨image.data ++ Array.replicate (romSize - image.size) 0⟩

end R3000
