import R3000.Proofs.HostCalls
import R3000.Proofs.InterruptLine
import R3000.Proofs.SavestateTransparency
import R3000.Proofs.SystemControl

/-! # What a cold reset goes back to

A reset takes the size of RAM from the configuration, but the revision of the processor and the scale of
DMA transfers from the machine as it is. Nothing changes these two but a savestate, so a reset goes back to
power-on as the machine knew it that the state comes from. -/
namespace R3000

namespace Bus
variable {δ : Type} {b : Bus δ}

def scaled : Motion (Bus δ) where
  holds b _ t := t.dma.wordCycles = b.dma.wordCycles
  still _ _ := rfl
  trans h k := k.trans h

theorem dmaWrite_scaled (offset value : UInt32) : Moves scaled (dmaWrite offset value) b := by
  have htried := (tried 0 (tries offset) (stored offset value b)).wordCycles
  simp only [Moves, scaled]
  rw [(dmaWrite_stored offset value b).2, htried, wordCycles_stored]

theorem update_scaled (cycles : UInt32) : Moves scaled (update cycles) b := by
  simp only [update]
  split
  · refine .bind (.forM (fun i b => ?_) _ _) fun _ _ _ => rfl
    simp only [Moves, scaled]
    rw [(updateChannel_leads b cycles i).state]
    rfl
  · exact .pure _

theorem writeGroup_scaled (offset value : UInt32) (w : Width) (g : Group) :
    Moves scaled (writeGroup offset value w g) b := by
  cases g with
  | memoryControl | ramSize | interrupt | serial => rfl
  | dma reg => exact .bind (T := scaled) rfl fun _ _ _ => dmaWrite_scaled _ _

theorem write_scaled (addr value : UInt32) (w : Width) : Moves scaled (write addr value w) b :=
  write_moves (fun _ _ _ => rfl) (fun _ _ _ _ => writeGroup_scaled _ _ _ _) fun _ => rfl

theorem carried_wordCycles : Carried fun b t : Bus δ => t.dma.wordCycles = b.dma.wordCycles where
  refl _ := rfl
  trans h k := k.trans h
  read addr w _ _ := congrArg Dma.Controller.wordCycles (read_kept addr w).1.dma
  write addr value w _ _ := write_scaled addr value w
  update cycles _ := update_scaled cycles

end Bus

theorem Cop0.prid_write (c : Cop0) (index : Nat) (value : UInt32) :
    (c.write index value).value.prid = c.prid := by
  unfold write
  split <;> rfl

theorem Instruction.prid_governs (i : Instruction) (gpr : Reg → UInt32) (c : Cop0) :
    (i.governs gpr c).prid = c.prid := by
  unfold governs
  split
  · rfl
  · cases i.moved? with
    | none => rfl
    | some p => exact c.prid_write _ _

namespace Machine
variable {γ δ : Type} {m : Machine γ δ}

/-- No instruction and no exception changes the revision. -/
theorem prid_next (m : Machine γ δ) :
    (next m).value.2.cpu.regs.cop0.prid = m.cpu.regs.cop0.prid := by
  rw [cpu_next]
  cases he : (attempt m).value.1.exception with
  | none =>
    obtain ⟨c, hmarked, hstep⟩ := Undisturbed.cop0_step he
    have hprid : c.prid = m.cpu.regs.cop0.prid := by rw [hmarked.same]; rfl
    rw [hstep, ← hprid]
    cases m.completed? with
    | none => rfl
    | some i => exact i.prid_governs _ c
  | some e =>
    obtain ⟨c, hmarked, -, hstep⟩ := (Raises.entry he).cop0
    rw [hstep]
    show c.prid = _
    rw [hmarked.same]
    rfl

theorem config_next (m : Machine γ δ) : (next m).value.2.config = m.config :=
  congrArg (·.value.2.config) (Blind.next m m.config)

theorem Handled.wordCycles {γ' δ' : Type} {t : Machine γ' δ'} (h : Handled m t) :
    t.bus.dma.wordCycles = m.bus.dma.wordCycles := by
  cases h with
  | loadRom _ image =>
    obtain ⟨rom, hrom⟩ := loadRom_frame m image
    rw [hrom]
  | poke _ addr words =>
    obtain ⟨ram, hram⟩ := poke_frame m addr words
    rw [hram]
  | bindReader _ channel r =>
    show (m.bus.dma.bindReader channel r).value.wordCycles = _
    unfold Dma.Controller.bindReader
    split
    · split <;> rfl
    · rfl
  | bindWriter _ channel w =>
    show (m.bus.dma.bindWriter channel w).value.wordCycles = _
    unfold Dma.Controller.bindWriter
    split
    · split <;> rfl
    · rfl
  | attachGte | attachDevice | raise | serialInput | listen | reset => rfl

/-- The machines that a host can bring about, each with the configuration that it was created with and
with that of the machine whose state it goes on from, which is another one after a restore. -/
inductive Descends : {γ δ : Type} → Config → Config → Machine γ δ → Prop
  | create {γ δ : Type} (config : Config) (gte : Gte γ) (gteState : γ) (device : Device δ)
      (outside : δ) : Descends config config (create config gte gteState device outside)
  | handled {γ δ γ' δ' : Type} {own origin : Config} {m : Machine γ δ} {t : Machine γ' δ'} :
      Handled m t → Descends own origin m → Descends own origin t
  | restore {γ δ γ' δ' : Type} {own origin own' origin' : Config} {m : Machine γ δ}
      {c : Machine γ' δ'} : Descends own origin m → Descends own' origin' c →
      Descends own origin' (m.restore c.savestate.toBytes).value.2
  | next {γ δ : Type} {own origin : Config} {m : Machine γ δ} :
      Descends own origin m → Descends own origin (next m).value.2

/-- All machines that a host can bring about descend from two configurations. -/
theorem reachable_iff_descends : m.Reachable ↔ ∃ own origin, Descends own origin m := by
  constructor
  · intro h
    have hcall : ∀ {γ δ γ' δ' : Type} {m : Machine γ δ} {t : Machine γ' δ'}, Handled m t →
        (∃ own origin, Descends own origin m) → ∃ own origin, Descends own origin t :=
      fun hcall => fun ⟨own, origin, hm⟩ => ⟨own, origin, .handled hcall hm⟩
    induction h with
    | create => exact ⟨_, _, .create _ _ _ _ _⟩
    | attachGte gte gteState _ ih => exact hcall (.attachGte _ gte gteState) ih
    | attachDevice device outside _ ih => exact hcall (.attachDevice _ device outside) ih
    | loadRom image _ ih => exact hcall (.loadRom _ image) ih
    | poke addr words _ ih => exact hcall (.poke _ addr words) ih
    | raise sources _ ih => exact hcall (.raise _ sources) ih
    | serialInput port mask levels _ ih => exact hcall (.serialInput _ port mask levels) ih
    | listen port l _ ih => exact hcall (.listen _ port l) ih
    | bindReader channel r _ ih => exact hcall (.bindReader _ channel r) ih
    | bindWriter channel w _ ih => exact hcall (.bindWriter _ channel w) ih
    | reset _ ih => exact hcall (.reset _) ih
    | restore _ _ ih ih' =>
      obtain ⟨own, _, hm⟩ := ih
      obtain ⟨_, origin, hc⟩ := ih'
      exact ⟨own, origin, .restore hm hc⟩
    | next _ ih =>
      obtain ⟨own, origin, hm⟩ := ih
      exact ⟨own, origin, .next hm⟩
  · rintro ⟨own, origin, h⟩
    induction h with
    | create => exact .create _ _ _ _ _
    | handled hcall _ ih => exact hcall.reachable ih
    | restore _ _ ih ih' => exact .restore ih ih'
    | next _ ih => exact .next ih

/-- What a machine still shows of the two configurations. -/
structure Stamped (own origin : Config) (m : Machine γ δ) : Prop where
  config : m.config = own
  prid : m.cpu.regs.cop0.prid = origin.prid
  wordCycles : m.bus.dma.wordCycles = origin.dmaWordCycles

theorem Descends.stamped {own origin : Config} (h : Descends own origin m) : Stamped own origin m := by
  induction h with
  | create => exact ⟨rfl, rfl, rfl⟩
  | handled hcall _ ih =>
    refine ⟨hcall.config.trans ih.config, ?_, hcall.wordCycles.trans ih.wordCycles⟩
    rw [← ih.prid]
    rcases hcall.cpu with hcpu | hcpu <;> rw [hcpu]
    rfl
  | @restore _ _ _ _ _ _ _ _ m c _ _ ih ih' =>
    rw [m.restore_saved c.savestate]
    exact ⟨ih.config, ih'.prid, ih'.wordCycles⟩
  | @next _ _ _ _ m _ ih =>
    exact ⟨(config_next m).trans ih.config, (prid_next m).trans ih.prid,
      (bus_next Bus.carried_wordCycles m).trans ih.wordCycles⟩

/-- The machine as it would be at power-on under a configuration, but for what RAM holds. -/
def fresh (m : Machine γ δ) (config : Config) : Machine γ δ :=
  let t := create config m.gte m.gteState m.bus.device m.bus.outside
  { t with bus := { t.bus with ram := m.bus.ram } }

/-- A reset goes back to power-on, but for what RAM holds, with the own size of RAM and the revision and
the scale of the machine that the state comes from; the ROM and everything bound stay. Where these are
the own ones, too, it is as if the machine had just been created. -/
theorem Descends.reset_fresh {own origin : Config} (h : Descends own origin m) :
    SameState (m.fresh { origin with ramSize := own.ramSize }) (reset m).value.2 ∧
    SamePeers m (reset m).value.2 ∧
    (origin.prid = own.prid → origin.dmaWordCycles = own.dmaWordCycles →
      SameState (m.fresh own) (reset m).value.2) := by
  have ⟨hconfig, hprid, hcycles⟩ := h.stamped
  have hstate : SameState (m.fresh { origin with ramSize := own.ramSize }) (reset m).value.2 := by
    refine ⟨congrArg Cpu.powerOn hprid, rfl, ?_, rfl, rfl, rfl, rfl, rfl, hcycles⟩
    show MemoryControl.boot m.config.ramSize = _
    rw [hconfig]
    rfl
  refine ⟨hstate, ⟨rfl, rfl, rfl, rfl, rfl, rfl, rfl, rfl⟩, fun hp hw => ?_⟩
  obtain ⟨prid, ramSize, dmaWordCycles⟩ := own
  obtain rfl : origin.prid = prid := hp
  obtain rfl : origin.dmaWordCycles = dmaWordCycles := hw
  exact hstate

def stranger : Config := { prid := 3, dmaWordCycles := 5 }

theorem Descends.restored {γ' δ' : Type} {own origin own' origin' : Config} {c : Machine γ' δ'}
    (h : Descends own origin m) (hc : Descends own' origin' c) :
    Descends own origin' (m.restored c.savestate) := by
  have hrestored := h.restore hc
  rwa [m.restore_saved c.savestate] at hrestored

def transplanted : Machine Gte.Registers Unit :=
  bare.restored (create stranger Gte.inert {} (Device.absent Unit) ()).savestate

theorem descends_transplanted : Descends {} stranger transplanted :=
  .restored (.create {} _ _ _ _) (.create stranger _ _ _ _)

/-- The reset takes neither the own revision nor the own scale. -/
theorem stale_transplanted : Descends {} stranger transplanted ∧
    ¬SameState (transplanted.fresh {}) (reset transplanted).value.2 := by
  refine ⟨descends_transplanted, fun h => ?_⟩
  have hprid : transplanted.cpu.regs.cop0.prid = 3 := descends_transplanted.stamped.prid
  have hfresh : transplanted.cpu.regs.cop0.prid = 2 := congrArg (·.regs.cop0.prid) h.cpu
  rw [hprid] at hfresh
  exact absurd hfresh (by decide)

theorem reset_fresh_transplanted : Descends {} stranger transplanted ∧
    SameState (transplanted.fresh stranger) (reset transplanted).value.2 ∧
    SamePeers transplanted (reset transplanted).value.2 ∧
    SameState ((next bare).value.2.fresh {}) (reset (next bare).value.2).value.2 := by
  have hforeign := descends_transplanted.reset_fresh
  have hnext : Descends {} {} (next bare).value.2 := .next (.create _ _ _ _ _)
  exact ⟨descends_transplanted, hforeign.1, hforeign.2.1, hnext.reset_fresh.2.2 rfl rfl⟩

end Machine
end R3000
