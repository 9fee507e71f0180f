/-! # The geometry engine

The processor only moves words in and out of the engine's 32 data and 32 control registers and hands
it command words; what a command computes is up to the engine. -/
namespace R3000

/-- What the engine answers to a command: the cycles until it is free, and its new state. -/
structure Gte.Answer (γ : Type) where
  latency : UInt32
  state : γ
  /-- The command's code, if the engine does not know it. -/
  unknown : Option UInt32 := none

/-- A geometry engine with states in `γ`. -/
structure Gte (γ : Type) where
  data : γ → Fin 32 → UInt32
  setData : γ → Fin 32 → UInt32 → γ
  control : γ → Fin 32 → UInt32
  setControl : γ → Fin 32 → UInt32 → γ
  execute : γ → UInt32 → Gte.Answer γ

namespace Gte

/-- The cycles that a command takes, where its code is known. -/
def latency? (command : UInt32) : Option UInt32 :=
  match (command &&& 0x3f).toNat with
  | 0x01 => some 15
  | 0x06 => some 8
  | 0x0c => some 6
  | 0x10 | 0x11 | 0x12 => some 8
  | 0x13 => some 19
  | 0x14 => some 13
  | 0x16 => some 44
  | 0x1b => some 17
  | 0x1c => some 11
  | 0x1e => some 14
  | 0x20 => some 30
  | 0x28 => some 5
  | 0x29 => some 8
  | 0x2a => some 17
  | 0x2d => some 5
  | 0x2e => some 6
  | 0x30 => some 23
  | 0x3d | 0x3e => some 5
  | 0x3f => some 39
  | _ => none

/-- An unknown command takes one cycle. -/
def latency (command : UInt32) : UInt32 := (latency? command).getD 1

/-- The registers of an engine. -/
structure Registers where
  data : Vector UInt32 32 := Vector.replicate 32 0
  control : Vector UInt32 32 := Vector.replicate 32 0
deriving DecidableEq

/-- An engine that keeps its registers and computes nothing, but takes its time over commands. -/
def inert : Gte Registers where
  data s i := s.data[i]
  setData s i v := { s with data := s.data.set i v }
  control s i := s.control[i]
  setControl s i v := { s with control := s.control.set i v }
  execute s command :=
    { latency := latency command, state := s,
      unknown := if (latency? command).isSome then none else some (command &&& 0x3f) }

end Gte
end R3000
