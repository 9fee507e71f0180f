import R3000.Machine.Step
import R3000.Proofs.Closure

/-! # What becomes of the bus in a step

The processor reaches its bus by aligned reads and writes alone, and hands it time. A relation between
buses that these carry along is one between the bus before a step and the bus after it. -/
namespace R3000

namespace Bus
variable {δ : Type} {b : Bus δ} {T : Motion (Bus δ)}

/-- A line is filled by reads of its words. -/
theorem fetchLine_moves (hread : ∀ addr b, Width.word.aligned addr → Moves T (read addr .word) b)
    (c : ICache) (addr : UInt32) : Moves T (c.fetch addr fun a => read a .word) b := by
  have hrefill : ∀ a ws l b, Moves T (ICache.refill (fun x => read x .word) a ws l) b := by
    intro a ws
    induction ws with
    | nil => exact fun _ _ => .pure _
    | cons w ws ih =>
      refine fun l b => .bind (hread _ b (a.wordAddr_aligned w)) fun r s _ => ?_
      cases r with
      | error e => exact .pure _
      | ok word => exact ih _ _
  unfold ICache.fetch
  dsimp only
  split
  · exact .quiet_bind (.note _) (.pure _)
  · refine .quiet_bind (.note _) (.bind (hrefill _ _ _ _) ?_)
    rintro ⟨refused, l⟩ s _
    cases refused <;> exact .pure _

/-- A write goes to RAM, to registers or to the device, or else nowhere. -/
theorem write_moves {addr value : UInt32} {w : Width}
    (hram : ∀ r ram, r.acts = [] → T.holds b r { b with ram })
    (hgroup : ∀ offset g, Region.of addr = .io offset → Group.of? offset = some g →
      Moves T (writeGroup offset value w g) b)
    (hdevice : ∀ t, Moves T (deviceWrite addr value w) t) : Moves T (write addr value w) b := by
  simp only [write]
  split
  · exact .lift_bind (hram _ b.ram (acts_require _ _)) (.bind (.modify (hram _ _ rfl)) fun _ _ _ => .pure _)
  · exact .quiet_bind (.note _) (.pure _)
  · rename_i offset hr
    refine .bind ?_ fun r t _ => ?_
    · simp only [ioWrite]
      split
      · exact .pure _
      · exact .quiet_bind (.note _) (.bind (hgroup offset _ hr ‹_›) fun _ _ _ => .pure _)
    · split
      · exact .pure _
      · exact hdevice t
  · exact hdevice b

/-- A relation between a bus and what comes of it by accesses and by time. -/
structure Carried (R : Bus δ → Bus δ → Prop) : Prop where
  refl : ∀ b, R b b
  trans : ∀ {b c d}, R b c → R c d → R b d
  read : ∀ addr w b, w.aligned addr → R b (Bus.read addr w b).value.2
  write : ∀ addr value w b, w.aligned addr → R b (Bus.write addr value w b).value.2
  update : ∀ cycles b, R b (Bus.update cycles b).value.2

def Carried.motion {R : Bus δ → Bus δ → Prop} (h : Carried R) : Motion (Bus δ) where
  holds b _ t := R b t
  still b _ := h.refl b
  trans := h.trans

end Bus

namespace Machine
variable {γ δ α : Type} {R : Bus δ → Bus δ → Prop} {m : Machine γ δ}

def carrying (γ : Type) (h : Bus.Carried R) : Motion (Machine γ δ) where
  holds m _ t := R m.bus t.bus
  still m _ := h.refl m.bus
  trans := h.trans

namespace Carrying
variable (h : Bus.Carried R)

/-- What leaves the bus alone. -/
theorem of_bus {x : Run γ δ α} (hx : (x m).value.2.bus = m.bus) : Moves (carrying γ h) x m := by
  show R m.bus (x m).value.2.bus
  rw [hx]
  exact h.refl m.bus

theorem onBus {x : Bus.Op δ α} (hx : Moves h.motion x m.bus) : Moves (carrying γ h) (onBus x) m :=
  .onBus hx fun _ _ hb => hb

theorem awaitGte : Moves (carrying γ h) awaitGte m := by
  refine .get_bind ?_
  dsimp only
  split
  · exact .quiet_bind (.note _) (of_bus h rfl)
  · exact .pure _

theorem commandGte (f : Register) : Moves (carrying γ h) (commandGte f) m := by
  refine .exec_bind (.plain (awaitGte h)) fun _ t _ => .exec_lift_bind (h.refl t.bus) (.exec_get_bind ?_)
  dsimp only
  split
  · exact .exec_lift_bind (h.refl t.bus) (of_bus h rfl)
  · exact of_bus h rfl

theorem closed : Closed fun _ x => ∀ m : Machine γ δ, Moves (carrying γ h) x m where
  ret _ _ := .pure _
  seq hx hf m := .exec_bind (hx m) fun a t ht => hf a ⟨m, t, ht⟩ t
  fail _ m := h.refl m.bus
  look _ hf m := .exec_get_bind (hf m m)
  report _ m := .exec_lift (h.refl m.bus)
  writeGpr _ _ _ := of_bus h rfl
  writeHi _ _ := of_bus h rfl
  writeLo _ _ := of_bus h rfl
  writeCop0 _ _ := of_bus h rfl
  cancel _ _ := of_bus h rfl
  schedule _ _ _ := of_bus h rfl
  setBranch _ _ _ := of_bus h rfl
  writeCaches _ _ := of_bus h rfl
  issue _ _ _ _ := of_bus h rfl
  resolve _ := of_bus h rfl
  await _ := .plain (awaitGte h)
  writeGte _ _ _ := of_bus h rfl
  busRead addr w ha _ := .plain (onBus h (h.read addr w _ ha))
  busWrite addr value w ha _ := .plain (onBus h (h.write addr value w _ ha))
  fetchLine c addr _ := .plain (onBus h (Bus.fetchLine_moves (h.read · .word) c addr))

theorem abort (e : Exception) (pc : UInt32) : Moves (carrying γ h) (abort e pc) m := of_bus h rfl

theorem complete (word pc : UInt32) : Moves (carrying γ h) (complete word pc) m := by
  have hword := (closed (γ := γ) h).executeWord word pc (fun _ _ _ _ _ => of_bus h rfl)
    fun f _ _ _ => commandGte h f
  refine .bind (hword m) fun outcome t _ => ?_
  cases outcome with
  | ok _ => exact of_bus h rfl
  | error e => exact of_bus h rfl

theorem obtain (pc : UInt32) : Moves (carrying γ h) (obtain pc) m :=
  (closed h).obtain pc (fun _ => of_bus h rfl) (fun _ => of_bus h rfl) m

theorem step : Moves (carrying γ h) step m := by
  refine .bind (of_bus h rfl) fun _ _ _ => .bind (of_bus h rfl) fun pc _ _ =>
    .bind (of_bus h rfl) fun _ _ _ => .get_bind ?_
  dsimp only
  split
  · exact .quiet_bind (.note _) (abort h _ pc)
  · refine .bind (obtain h pc) fun r _ _ => ?_
    cases r with
    | error e => exact abort h e pc
    | ok word => exact complete h word pc

end Carrying

/-- What accesses and time carry along, a step and its cycles do. -/
theorem bus_next (h : Bus.Carried R) (m : Machine γ δ) : R m.bus (next m).value.2.bus := by
  have hnext : Moves (carrying γ h) next m :=
    .get_bind (.bind (Carrying.step h) fun _ t _ => .get_bind
      (.bind (Carrying.onBus h (h.update _ t.bus)) fun _ _ _ => .pure _))
  exact hnext

end Machine
end R3000
