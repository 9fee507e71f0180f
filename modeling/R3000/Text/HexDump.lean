import R3000.Text.Numeral

/-! # Hex dumps: sixteen bytes a row, each row under its address -/
namespace R3000.HexDump

/-- A byte as a character of the dump: itself if it is a visible ASCII sign, else a point. -/
def glyph (b : UInt8) : Char :=
  if 0x21 ≤ b ∧ b ≤ 0x7e then Char.ofNat b.toNat else '.'

/-- The hexadecimal column has 47 places, so that a short row keeps its glyphs in line. -/
def column : Nat := 47

def row (base : UInt32) (bytes : List UInt8) : String :=
  let codes := " ".intercalate (bytes.map fun b => Numeral.digits b.toNat 2)
  Numeral.digits base.toNat 8 ++ "   " ++ String.ofList (codes.toList.rightpad column ' ') ++ "   "
    ++ String.ofList (bytes.map glyph) ++ "\n"

/-- The text of a dump as far as it fits into `room` characters, after `written`, and whether all of
it did. The first byte lies at `base`; addresses wrap at the top. -/
def fill (room : Nat) (base : UInt32) (bytes : List UInt8) (written : String) : String × Bool :=
  match bytes with
  | [] => (written, true)
  | b :: bs =>
    let r := row base ((b :: bs).take 16)
    if r.length ≤ room then fill (room - r.length) (base + 16) (bs.drop 15) (written ++ r)
    else (written ++ String.ofList (r.toList.take room), false)
termination_by bytes.length
decreasing_by simp only [List.length_cons, List.length_drop]; omega

/-- The whole dump. -/
def text (base : UInt32) (bytes : List UInt8) : String :=
  match bytes with
  | [] => ""
  | b :: bs => row base ((b :: bs).take 16) ++ text (base + 16) (bs.drop 15)
termination_by bytes.length
decreasing_by simp only [List.length_cons, List.length_drop]; omega

end R3000.HexDump
