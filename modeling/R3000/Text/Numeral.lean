/-! # Numerals: hexadecimal text of fixed least length -/
namespace R3000.Numeral

/-- The lower-case hexadecimal digits of a number, at least `least` of them. -/
def digits (n least : Nat) : String :=
  let ds := Nat.toDigits 16 n
  String.ofList (List.replicate (least - ds.length) '0' ++ ds)

/-- Hexadecimal text with its `0x` mark. -/
def hex (n least : Nat) : String := "0x" ++ digits n least

/-- As few digits as the number needs. -/
def short (w : UInt32) : String := hex w.toNat 1

/-- Eight digits, as addresses are written. -/
def address (w : UInt32) : String := hex w.toNat 8

def upperDigits (n least : Nat) : String := (digits n least).map Char.toUpper

/-- An operand is written in decimal below sixteen and in hexadecimal above, the sign in front. -/
def operand (i : Int) : String :=
  if i.natAbs < 16 then toString i
  else if i < 0 then "-" ++ hex i.natAbs 1 else hex i.natAbs 1

example : address 0xbfc00000 = "0xbfc00000" ∧ hex 7 3 = "0x007" := by cbv
example : operand (-24) = "-0x18" ∧ operand 15 = "15" := by cbv

end R3000.Numeral
