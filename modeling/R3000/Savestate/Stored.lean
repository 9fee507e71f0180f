/-! # Stored values

A stored value is a run of bytes that says where it ends: numbers have a fixed width and their lowest
byte first, and nothing lies between the parts of a value. Reading a value takes its bytes off the
front of the input. -/
namespace R3000

inductive DecodeError
  | endOfInput
  /-- A truth value is one byte, 0 or 1. -/
  | truth (found : UInt8)
  /-- A byte of 0 or 1 tells whether an optional value is there. -/
  | presence (found : UInt8)
  /-- A choice among `count` forms is the number of one of them. -/
  | choice (found : UInt32) (count : Nat)
deriving DecidableEq

def DecodeError.message : DecodeError → String
  | .endOfInput => "io error: unexpected end of file"
  | .truth found =>
    "invalid u8 while decoding bool, expected 0 or 1, found " ++ toString found.toNat
  | .presence found => "tag for enum is not valid, found " ++ toString found.toNat
  | .choice found count =>
    "invalid value: integer \x60" ++ toString found.toNat
      ++ "\x60, expected variant index 0 <= i < " ++ toString count

/-- Reads a value from the front of the input. -/
abbrev Decoder (α : Type) := StateT (List UInt8) (Except DecodeError) α

namespace Decoder

def byte : Decoder UInt8
  | [] => .error .endOfInput
  | b :: rest => .ok (b, rest)

/-- A number of `k` bytes. -/
def number : Nat → Decoder Nat
  | 0 => return 0
  | k + 1 => do
    let b ← byte
    return b.toNat + 256 * (← number k)

/-- The next `n` bytes. -/
def take (n : Nat) : Decoder (List UInt8) := fun input =>
  if n ≤ input.length then .ok (input.take n, input.drop n) else .error .endOfInput

end Decoder

/-- The `k` low bytes of a number, lowest first. -/
def lowBytes : Nat → Nat → List UInt8
  | 0, _ => []
  | k + 1, n => UInt8.ofNat n :: lowBytes k (n / 256)

class Stored (α : Type) where
  encode : α → List UInt8
  decode : Decoder α

namespace Stored
variable {α β : Type}

instance : Stored UInt8 where
  encode b := [b]
  decode := Decoder.byte

instance : Stored UInt16 where
  encode w := lowBytes 2 w.toNat
  decode := UInt16.ofNat <$> Decoder.number 2

instance : Stored UInt32 where
  encode w := lowBytes 4 w.toNat
  decode := UInt32.ofNat <$> Decoder.number 4

instance : Stored UInt64 where
  encode w := lowBytes 8 w.toNat
  decode := UInt64.ofNat <$> Decoder.number 8

instance : Stored Bool where
  encode b := [if b then 1 else 0]
  decode := do
    let b ← Decoder.byte
    if b = 0 then return false
    else if b = 1 then return true
    else throw (.truth b)

instance [Stored α] : Stored (Option α) where
  encode
    | none => [0]
    | some a => 1 :: encode a
  decode := do
    let b ← Decoder.byte
    if b = 0 then return none
    else if b = 1 then return some (← decode)
    else throw (.presence b)

instance [Stored α] [Stored β] : Stored (α × β) where
  encode p := encode p.1 ++ encode p.2
  decode := return (← decode, ← decode)

/-- Bytes, behind their number. -/
instance : Stored ByteArray where
  encode b := encode (UInt64.ofNat b.size) ++ b.data.toList
  decode := do
    let n : UInt64 ← decode
    return ⟨(← Decoder.take n.toNat).toArray⟩

def decodeVector [Stored α] : (n : Nat) → Decoder (Vector α n)
  | 0 => return #v[]
  | n + 1 => return (← decodeVector n).push (← decode)

/-- Values of a fixed number, one after the other. -/
instance {n : Nat} [Stored α] : Stored (Vector α n) where
  encode v := v.toList.flatMap encode
  decode := decodeVector n

/-- The number of a form, out of `count`. -/
def decodeChoice (count : Nat) : Decoder Nat := do
  let i : UInt32 ← decode
  if i.toNat < count then return i.toNat else throw (.choice i count)

def encodeChoice (i : Nat) : List UInt8 := encode (UInt32.ofNat i)

/-- A value is stored as its parts, out of which it can be built again. -/
abbrev via [Stored β] (parts : α → β) (build : β → α) : Stored α where
  encode a := encode (parts a)
  decode := build <$> decode

end Stored
end R3000
