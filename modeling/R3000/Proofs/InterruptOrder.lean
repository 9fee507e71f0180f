import R3000.Interrupt
import R3000.Proofs.Motion

/-! # Raised sources

The sources that a controller has seen raised are a set: neither their order matters nor how the
raises of one source are grouped. -/
namespace R3000.Interrupt.Controller
variable {c : Controller}

theorem value_refresh (c : Controller) : c.refresh.value = { c with line := c.asserted } := by
  simp only [refresh]
  split <;> rfl

theorem value_raise (c : Controller) (s : UInt32) :
    (c.raise s).value =
      { c with pending := c.pending ||| s, line := (c.pending ||| s) &&& c.enabled != 0 } :=
  value_refresh _

theorem raise_comm (c : Controller) (s t : UInt32) :
    ((c.raise s).value.raise t).value = ((c.raise t).value.raise s).value := by
  simp only [value_raise]
  rw [UInt32.or_assoc, UInt32.or_assoc, UInt32.or_comm s t]

def raised (s : UInt32) (n : Nat) (c : Controller) : Controller := (c.raiseTimes s n).value

theorem raised_succ (s : UInt32) (n : Nat) (c : Controller) :
    c.raised s (n + 1) = (c.raise s).value.raised s n := rfl

theorem raised_add (s : UInt32) (n k : Nat) (c : Controller) :
    (c.raised s n).raised s k = c.raised s (n + k) := by
  induction n generalizing c with
  | zero => rw [Nat.zero_add]; rfl
  | succ n ih => rw [Nat.succ_add, raised_succ, raised_succ, ih]

theorem raised_raise (s t : UInt32) (k : Nat) (c : Controller) :
    (c.raise s).value.raised t k = ((c.raised t k).raise s).value := by
  induction k generalizing c with
  | zero => rfl
  | succ k ih => rw [raised_succ, raised_succ, raise_comm, ih]

theorem raised_comm (s t : UInt32) (n k : Nat) (c : Controller) :
    (c.raised s n).raised t k = (c.raised t k).raised s n := by
  induction n generalizing c with
  | zero => rfl
  | succ n ih => rw [raised_succ, raised_succ, ih, raised_raise]

theorem quiet_refresh (c : Controller) : c.refresh.Quiet := by
  unfold refresh
  dsimp only
  split <;> exact ⟨rfl, rfl⟩

theorem quiet_raise (c : Controller) (s : UInt32) : (c.raise s).Quiet := .note_bind (quiet_refresh _)

theorem quiet_raiseTimes (c : Controller) (s : UInt32) (n : Nat) : (c.raiseTimes s n).Quiet := by
  induction n generalizing c with
  | zero => exact .pure c
  | succ n ih => exact (quiet_raise c s).bind (ih _)

end R3000.Interrupt.Controller
