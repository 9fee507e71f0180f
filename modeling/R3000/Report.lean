import R3000.Report.Act
import R3000.Report.Fault
import R3000.Report.Notice

/-! # Reported computations

A computation gives a value and leaves a record of the notices, the outward acts and the faults on
its way, in order. Nothing reads a record, so `value` takes a sequence of computations to the
sequence of their values: a statement about what is computed never mentions what is reported. -/
namespace R3000

structure Record where
  notices : List Notice := []
  acts : List Act := []
  faults : List Fault := []

namespace Record

instance : Append Record where
  append a b := ⟨a.notices ++ b.notices, a.acts ++ b.acts, a.faults ++ b.faults⟩

@[simp] theorem notices_append (a b : Record) : (a ++ b).notices = a.notices ++ b.notices := rfl
@[simp] theorem acts_append (a b : Record) : (a ++ b).acts = a.acts ++ b.acts := rfl
@[simp] theorem faults_append (a b : Record) : (a ++ b).faults = a.faults ++ b.faults := rfl

@[simp] theorem empty_append (a : Record) : ({} : Record) ++ a = a := rfl

@[simp] theorem append_empty (a : Record) : a ++ {} = a := by
  show Record.mk _ _ _ = a
  simp

theorem append_assoc (a b c : Record) : a ++ b ++ c = a ++ (b ++ c) := by
  show Record.mk _ _ _ = Record.mk _ _ _
  simp [List.append_assoc]

end Record

structure Reported (α : Type) where
  value : α
  record : Record := {}

namespace Reported

instance : Monad Reported where
  pure a := { value := a }
  bind
    | ⟨a, r⟩, f =>
      match f a with
      | ⟨b, s⟩ => { value := b, record := r ++ s }

variable {α β : Type}

@[simp] theorem value_pure (a : α) : (pure a : Reported α).value = a := rfl
@[simp] theorem record_pure (a : α) : (pure a : Reported α).record = {} := rfl

@[simp] theorem value_bind (x : Reported α) (f : α → Reported β) :
    (x >>= f).value = (f x.value).value := rfl

@[simp] theorem record_bind (x : Reported α) (f : α → Reported β) :
    (x >>= f).record = x.record ++ (f x.value).record := rfl

@[simp] theorem value_map (g : α → β) (x : Reported α) : (g <$> x).value = g x.value := rfl

@[simp] theorem record_map (g : α → β) (x : Reported α) : (g <$> x).record = x.record :=
  Record.append_empty _

theorem eq_of {x y : Reported α} (hv : x.value = y.value) (hr : x.record = y.record) : x = y := by
  cases x; cases y; cases hv; cases hr; rfl

instance : LawfulMonad Reported :=
  LawfulMonad.mk' Reported (fun _ => eq_of rfl (record_map id _)) (fun _ _ => rfl)
    (fun _ _ _ => eq_of rfl (Record.append_assoc _ _ _))

end Reported

def note (n : Notice) : Reported Unit := { value := (), record := { notices := [n] } }

def act (a : Act) : Reported Unit := { value := (), record := { acts := [a] } }

def fault (f : Fault) : Reported Unit := { value := (), record := { faults := [f] } }

@[simp] theorem record_note (n : Notice) : (note n).record = { notices := [n] } := rfl
@[simp] theorem record_act (a : Act) : (act a).record = { acts := [a] } := rfl
@[simp] theorem record_fault (f : Fault) : (fault f).record = { faults := [f] } := rfl

/-- Leaves a fault where `safe` does not hold. -/
def require (safe : Bool) (f : Fault) : Reported Unit := if safe then pure () else fault f

@[simp] theorem record_require_true (f : Fault) : (require true f).record = {} := rfl

end R3000
