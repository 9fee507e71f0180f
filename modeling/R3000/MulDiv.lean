import R3000.Word

/-! # Multiplications and divisions, and how long they take -/
namespace R3000

inductive MulDivOp | mult | multu | div | divu deriving DecidableEq

namespace MulDivOp

def name : MulDivOp → String
  | .mult => "Mult" | .multu => "Multu" | .div => "Div" | .divu => "Divu"

/-- What a multiplication looks at to see how long it takes. -/
def magnitude (op : MulDivOp) (lhs : UInt32) : UInt32 :=
  match op with
  | .mult => if lhs.toInt32 < 0 then ~~~lhs else lhs
  | _ => lhs

/-- The cycles until the result is ready. -/
def latency (op : MulDivOp) (lhs : UInt32) : UInt32 :=
  match op with
  | .mult | .multu =>
    if op.magnitude lhs ≤ 0x7ff then 6 else if op.magnitude lhs ≤ 0xfffff then 9 else 13
  | .div | .divu => 36

end MulDivOp
end R3000
