import R3000.Report
import R3000.Word

/-! # The bit clock of a serial port -/
namespace R3000.Serial

structure Timer where
  period : UInt32 := 0
  /-- Cycles until the clock expires, while it runs. -/
  remaining : Option UInt32 := none
deriving DecidableEq

namespace Timer

def running (t : Timer) : Bool := t.remaining.isSome

/-- Changes the period. No period stops the clock, and any other leaves it as it is. -/
def setPeriod (period : UInt32) (t : Timer) : Timer :=
  { period, remaining := if period = 0 then none else t.remaining }

/-- Changes the period, and sets the clock going if it has one. -/
def start (period : UInt32) (t : Timer) : Timer :=
  { period, remaining := if period = 0 then none else some (t.remaining.getD period) }

def stop (t : Timer) : Timer := { t with remaining := none }

/-- How often the clock expires within these cycles. -/
def expiries (t : Timer) (cycles : UInt32) : UInt32 :=
  match t.remaining with
  | none => 0
  | some r => if cycles < r then 0 else 1 + (cycles - r) / t.period

/-- The clock these cycles later. -/
def advance (t : Timer) (cycles : UInt32) : Timer :=
  match t.remaining with
  | none => t
  | some r =>
    { t with
      remaining := some (if cycles < r then r - cycles else t.period - (cycles - r) % t.period) }

/-- A clock that expires within these cycles has a period to reload. -/
def reloads (t : Timer) (cycles : UInt32) : Bool :=
  t.period != 0 || t.remaining.all (cycles < ·)

/-- The count of expiries fits a word: a clock due at once is not given every cycle that there is. -/
def countable (t : Timer) (cycles : UInt32) : Bool :=
  t.period != 1 || t.remaining != some 0 || cycles != Word.max

end Timer
end R3000.Serial
