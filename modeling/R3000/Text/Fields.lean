import R3000.Text.Numeral

/-! # Values in words: fields by name in braces, lists in brackets, sets of flags by name -/
namespace R3000.Fields

/-- A name before fields in braces; `inner` is what stands between them. -/
def braced (name inner : String) : String := name ++ " \x7b " ++ inner ++ " \x7d"

def inner (fields : List (String × String)) : String :=
  ", ".intercalate (fields.map fun f => f.1 ++ ": " ++ f.2)

def all (name : String) (fields : List (String × String)) : String := braced name (inner fields)

/-- Two points stand for the fields that are left out. -/
def some (name : String) (fields : List (String × String)) : String :=
  braced name (inner fields ++ ", ..")

/-- A word under a name, and then the fields that it is made of. -/
def word (name : String) (w : UInt32) (fields : List (String × String)) : String :=
  all name ((".0", toString w.toNat) :: fields)

def list (items : List String) : String := "[" ++ ", ".intercalate items ++ "]"

def number (w : UInt32) : String := toString w.toNat

def optional : Option UInt32 → String
  | .none => "None"
  | .some w => "Some(" ++ number w ++ ")"

/-- The names of the bits that are set, and behind them the bits that have no name. -/
def flags (names : List (String × Nat)) (bits : UInt32) : String :=
  let known := names.filter fun n => bits.toNat.testBit n.2
  let named := names.foldl (fun m n => m ||| 1 <<< UInt32.ofNat n.2) 0
  let rest := bits &&& ~~~named
  let parts := known.map Prod.fst ++ if rest = 0 then [] else [Numeral.short rest]
  if parts.isEmpty then "(empty)" else " | ".intercalate parts

example : flags [("A", 0), ("B", 3)] 0x1b = "A | B | 0x12" := by cbv
example : all "P" [("x", number 1), ("y", optional none)] = "P \x7b x: 1, y: None \x7d" := by cbv

end R3000.Fields
