import R3000.Word

/-! # The breakpoint control register -/
namespace R3000

structure Dcic where
  word : UInt32 := 0
deriving DecidableEq

namespace Dcic

/-- Any breakpoint was hit. -/
def db (d : Dcic) : Bool := Word.bit d.word 0

def pc (d : Dcic) : Bool := Word.bit d.word 1

def da (d : Dcic) : Bool := Word.bit d.word 2

def r (d : Dcic) : Bool := Word.bit d.word 3

def w (d : Dcic) : Bool := Word.bit d.word 4

def t (d : Dcic) : Bool := Word.bit d.word 5

/-- Breakpoints are enabled. -/
def de (d : Dcic) : Bool := Word.bit d.word 23

/-- Breakpoints on execution are enabled. -/
def pce (d : Dcic) : Bool := Word.bit d.word 24

/-- Breakpoints on data accesses are enabled. -/
def dae (d : Dcic) : Bool := Word.bit d.word 25

def dr (d : Dcic) : Bool := Word.bit d.word 26

def dw (d : Dcic) : Bool := Word.bit d.word 27

def te (d : Dcic) : Bool := Word.bit d.word 28

/-- Breakpoints apply in kernel mode. -/
def kd (d : Dcic) : Bool := Word.bit d.word 29

/-- Breakpoints apply in user mode. -/
def ud (d : Dcic) : Bool := Word.bit d.word 30

/-- A hit traps to the debug handler. -/
def tr (d : Dcic) : Bool := Word.bit d.word 31

def armed (d : Dcic) (userMode : Bool) : Bool := d.de && if userMode then d.ud else d.kd

/-- The hits of one breakpoint, which take the place of those recorded before. -/
def record (d : Dcic) (hits : UInt32) : Dcic := ⟨(d.word &&& ~~~0x3f) ||| hits⟩

end Dcic
end R3000
