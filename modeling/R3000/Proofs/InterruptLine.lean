import R3000.Proofs.BusCourse
import R3000.Proofs.DmaInterrupt
import R3000.Proofs.Unchanged

/-! # The interrupt line

Whatever is done to a machine, its interrupt controller is only raised and written, and each time it
drives its line anew. So the line always shows whether an enabled source is pending. -/
namespace R3000

namespace Interrupt.Controller
variable {c d e : Controller}

/-- The line shows whether an enabled source is pending. -/
def Shown (c : Controller) : Prop := c.line = c.asserted

/-- What comes of a controller by raises and by writes to its registers. -/
inductive Driven (c : Controller) : Controller → Prop
  | refl : Driven c c
  | raise {d : Controller} (sources : UInt32) : Driven c d → Driven c (d.raise sources).value
  | write {d : Controller} (index : Nat) (value access : UInt32) :
      Driven c d → Driven c (d.write index value access).value

theorem Driven.trans (h : Driven c d) (k : Driven d e) : Driven c e := by
  induction k with
  | refl => exact h
  | raise sources _ ih => exact .raise sources ih
  | write index value access _ ih => exact .write index value access ih

inductive Raised (c : Controller) : Controller → Prop
  | refl : Raised c c
  | raise {d : Controller} (sources : UInt32) : Raised c d → Raised c (d.raise sources).value

namespace Raised

theorem trans (h : Raised c d) (k : Raised d e) : Raised c e := by
  induction k with
  | refl => exact h
  | raise sources _ ih => exact .raise sources ih

theorem raised (sources : UInt32) (n : Nat) (c : Controller) : Raised c (c.raised sources n) := by
  induction n generalizing c with
  | zero => exact .refl
  | succ n ih => exact .trans (.raise sources .refl) (ih _)

theorem driven (h : Raised c d) : Driven c d := by
  induction h with
  | refl => exact .refl
  | raise sources _ ih => exact .raise sources ih

/-- A source that is pending stays so. -/
theorem pending (h : Raised c d) {k : Nat} (hk : Word.bit c.pending k) : Word.bit d.pending k := by
  induction h with
  | refl => exact hk
  | raise sources _ ih => simp [value_raise, ih]

end Raised

theorem shown_zero : ({} : Controller).Shown := rfl

theorem shown_refresh (c : Controller) : c.refresh.value.Shown := by
  rw [value_refresh]
  rfl

theorem shown_write (c : Controller) (index : Nat) (value access : UInt32) :
    (c.write index value access).value.Shown := by
  unfold write
  split
  · exact shown_refresh _
  · dsimp only
    split <;> exact shown_refresh _
  · exact shown_refresh _

theorem Driven.shown (h : Driven c d) (hc : c.Shown) : d.Shown := by
  cases h with
  | refl => exact hc
  | raise sources _ => exact shown_refresh _
  | write index value access _ => exact shown_write _ index value access

end Interrupt.Controller

namespace Serial.Controller
variable {δ : Type} (c : Controller δ) (int : Interrupt.Controller) (outside : δ)

theorem input_raised (port : Nat) (mask levels : UInt32) :
    int.Raised (c.input port mask levels int outside).value.2.1 := by
  unfold input
  split
  · exact .raised _ _ _
  · exact .refl

theorem write_raised (port : Nat) (offset value : UInt32) (w : Width) :
    int.Raised (c.write port offset value w int outside).value.2.1 := by
  unfold write
  split
  · exact .raised _ _ _
  · exact .refl

theorem update_raised (cycles : UInt32) : int.Raised (c.update cycles int outside).value.2.1 := by
  obtain ⟨o, ho⟩ := c.value_update cycles int outside
  rw [ho]
  exact .trans (.raised _ _ _) (.raised _ _ _)

end Serial.Controller

namespace Bus
variable {δ : Type} {b : Bus δ}

def driving : Motion (Bus δ) where
  holds b _ t := b.int.Driven t.int
  still _ _ := .refl
  trans := .trans

theorem driving_of_int {r : Record} {t : Bus δ} (h : t.int = b.int) : driving.holds b r t := by
  show b.int.Driven t.int
  rw [h]
  exact .refl

def raising : Motion (Bus δ) where
  holds b _ t := b.int.Raised t.int
  still _ _ := .refl
  trans := .trans

theorem driving_of_raising {α : Type} {x : Bus.Op δ α} (h : Moves raising x b) : Moves driving x b :=
  Interrupt.Controller.Raised.driven h

theorem raise_raises (sources : UInt32) : Moves raising (raise sources) b :=
  Interrupt.Controller.Raised.raise sources .refl

theorem serialInput_raises (port : Nat) (mask levels : UInt32) :
    Moves raising (serialInput port mask levels) b :=
  b.serial.input_raised b.int b.outside port mask levels

theorem serialWrite_raises (port : Nat) (offset value : UInt32) (w : Width) :
    Moves raising (serialWrite port offset value w) b :=
  b.serial.write_raised b.int b.outside port offset value w

theorem serialUpdate_raises (cycles : UInt32) : Moves raising (serialUpdate cycles) b :=
  b.serial.update_raised b.int b.outside cycles

theorem stored_raised (offset value : UInt32) (b : Bus δ) : b.int.Raised (stored offset value b).int := by
  by_cases h : offset = 0x74
  · subst h
    rw [(stored_dicr value b).2]
    exact .raised _ _ _
  · rw [(stored_of_ne h value b).1]
    exact .refl

theorem dmaWrite_raises (offset value : UInt32) : Moves raising (dmaWrite offset value) b := by
  have hint := (tried 0 (tries offset) (stored offset value b)).int
  have hstate := (dmaWrite_stored offset value b).2
  simp only [Moves, raising]
  rw [hstate, hint]
  exact stored_raised offset value b

theorem dmaUpdate_raises (cycles : UInt32) : Moves raising (dmaUpdate cycles) b := by
  refine .forM (fun i b => ?_) _ _
  simp only [Moves, raising]
  rw [(updateChannel_leads b cycles i).state]
  exact .raised _ _ _

theorem update_raises (cycles : UInt32) : Moves raising (update cycles) b := by
  simp only [update]
  split
  · exact .bind (dmaUpdate_raises cycles) fun _ _ _ => serialUpdate_raises cycles
  · exact .pure _

theorem writeGroup_driving (offset value : UInt32) (w : Width) (g : Group) :
    Moves driving (writeGroup offset value w g) b := by
  cases g with
  | memoryControl index => exact driving_of_int rfl
  | ramSize => exact driving_of_int rfl
  | interrupt index => exact Interrupt.Controller.Driven.write index _ _ .refl
  | serial port reg => exact driving_of_raising (serialWrite_raises port reg value w)
  | dma reg =>
    exact .bind (driving_of_int rfl) fun _ _ _ => driving_of_raising (dmaWrite_raises _ _)

theorem write_driving (addr value : UInt32) (w : Width) : Moves driving (write addr value w) b :=
  write_moves (fun _ _ _ => driving_of_int rfl) (fun _ _ _ _ => writeGroup_driving _ _ _ _) fun _ =>
    driving_of_int rfl

/-- Reads leave the interrupt controller alone, and writes and time drive it. -/
theorem carried_driven : Carried fun b t : Bus δ => b.int.Driven t.int where
  refl _ := .refl
  trans := .trans
  read addr w _ _ := driving_of_int (r := {}) (read_kept addr w).1.int
  write addr value w _ _ := write_driving addr value w
  update cycles _ := driving_of_raising (update_raises cycles)

end Bus

namespace Machine
variable {γ δ : Type} {m : Machine γ δ}

theorem int_poke (addr : UInt32) (words : List UInt32) :
    (poke addr words m).value.2.bus.int = m.bus.int := by
  induction words generalizing m addr with
  | nil => rfl
  | cons w words ih => exact ih (m := { m with bus := { m.bus with ram := m.bus.ram.setWord addr w } }) _

/-- In every machine that a host can bring about the interrupt line shows whether an enabled source is
pending. -/
theorem Reachable.shown (h : m.Reachable) : m.bus.int.Shown := by
  induction h with
  | create | reset => exact Interrupt.Controller.shown_zero
  | attachGte _ _ _ ih | attachDevice _ _ _ ih => exact ih
  | listen _ _ _ ih | bindReader _ _ _ ih | bindWriter _ _ _ ih => exact ih
  | loadRom image _ ih =>
    simp only [Machine.loadRom]
    cases Rom.ofImage? image <;> exact ih
  | poke addr words _ ih =>
    rw [int_poke]
    exact ih
  | raise sources _ ih => exact (Bus.raise_raises sources).driven.shown ih
  | serialInput port mask levels _ ih => exact (Bus.serialInput_raises port mask levels).driven.shown ih
  | @restore _ _ _ _ m c _ _ _ ih =>
    rw [m.restore_saved c.savestate]
    exact ih
  | @next _ _ m _ ih => exact (bus_next Bus.carried_driven m).shown ih

end Machine
end R3000
