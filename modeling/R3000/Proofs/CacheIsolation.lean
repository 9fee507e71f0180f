import R3000.Proofs.DeviceTime
import R3000.Proofs.DmaCompletion
import R3000.Proofs.MemoryAccesses

/-! # Isolated caches

While the caches are isolated, loads and stores by the segments below kseg2 reach no further than the
array that the control word selects, and those by kseg2 no further than the control word. So the bus is
used for nothing but instructions, and what is on it changes in the devices' own time only. -/
namespace R3000

namespace Serial.Controller
variable {δ : Type}

theorem updatePort_asks {ok : UInt32 → Prop} (c : Controller δ) (i : Fin 2) (cycles : UInt32)
    (int : Interrupt.Controller) (outside : δ) : (c.updatePort i cycles int outside).record.Asks ok :=
  .append (.of_acts (Port.acts_update _ _)) (c.settle_asks _ _ _ _)

theorem update_asks {ok : UInt32 → Prop} (c : Controller δ) (cycles : UInt32) (int : Interrupt.Controller)
    (outside : δ) : (c.update cycles int outside).record.Asks ok :=
  .append (c.updatePort_asks 0 cycles int outside) (updatePort_asks _ 1 cycles _ _)

end Serial.Controller

namespace Bus
variable {δ : Type} {b t u : Bus δ}

/-- What the devices' time leaves alone. -/
structure Standing (b t : Bus δ) : Prop where
  ram : t.ram = b.ram
  rom : t.rom = b.rom
  memoryControl : t.memoryControl = b.memoryControl

theorem Standing.trans (h : Standing b t) (k : Standing t u) : Standing b u :=
  ⟨k.ram.trans h.ram, k.rom.trans h.rom, k.memoryControl.trans h.memoryControl⟩

def standing : Motion (Bus δ) where
  holds b r t := Standing b t ∧ r.Asks fun _ => False
  still _ _ := ⟨⟨rfl, rfl, rfl⟩, .of_acts rfl⟩
  trans h k := ⟨h.1.trans k.1, h.2.append k.2⟩

theorem updateChannel_stands (cycles : UInt32) (i : Fin 7) : Moves standing (updateChannel cycles i) b := by
  have h := updateChannel_leads b cycles i
  refine ⟨?_, .of_acts h.acts⟩
  rw [h.state]
  exact ⟨rfl, rfl, rfl⟩

theorem serialUpdate_stands (cycles : UInt32) : Moves standing (serialUpdate cycles) b := by
  refine ⟨⟨rfl, rfl, rfl⟩, ?_⟩
  simp only [Record.Asks]
  rw [(serialUpdate_eq b cycles).1]
  exact b.serial.update_asks cycles b.int b.outside

theorem update_stands (cycles : UInt32) : Moves standing (update cycles) b := by
  unfold update
  split
  · have hdma : Moves standing (dmaUpdate cycles) b := .forM (fun i _ => updateChannel_stands cycles i) _ _
    exact .bind hdma fun _ _ _ => serialUpdate_stands cycles
  · exact .pure _

end Bus

def Act.Fetches (pc : UInt32) (a : Act) : Prop :=
  ∃ addr : UInt32, a = .deviceRead addr .word ∧ addr.toNat / 16 = (translate pc).toNat / 16

def Load.brings (op : Load) (current vaddr value : UInt32) : UInt32 :=
  match op with
  | .lb => Word.signExtend8 value.toUInt8
  | .lh => Word.signExtend16 value.toUInt16
  | .lbu | .lhu | .lw => value
  | .lwl => mergeLeft current value (Lane.of vaddr)
  | .lwr => mergeRight current value (Lane.of vaddr)

namespace Caches
variable {c d e : Caches}

/-- Only the array that isolated stores go to may have changed. -/
structure Selected (c d : Caches) : Prop where
  biu : d.biu = c.biu
  instr : ¬c.biu.is1 → d.instr = c.instr
  data : c.biu.is1 ∨ ¬c.biu.ds → d.data = c.data

theorem Selected.refl (c : Caches) : Selected c c := ⟨rfl, fun _ => rfl, fun _ => rfl⟩

theorem Selected.of_eq (h : d = c) : Selected c d := h ▸ .refl c

theorem Selected.trans (h : Selected c d) (k : Selected d e) : Selected c e := by
  refine ⟨k.biu.trans h.biu, fun hi => (k.instr ?_).trans (h.instr hi),
    fun hd => (k.data ?_).trans (h.data hd)⟩
  · rwa [h.biu]
  · rwa [h.biu]

end Caches

namespace Machine
variable {γ δ α β : Type} {m t u : Machine γ δ}

def isolatedLane (c : Caches) (vaddr : UInt32) (w : Width) : UInt32 :=
  Lane.extract (isolatedWord c (translate vaddr)) (translate vaddr) w

/-- The bus is not used, nor anything asked of the world outside but a command of the geometry engine. -/
structure OffBus (m : Machine γ δ) (r : Record) (t : Machine γ δ) : Prop where
  bus : t.bus = m.bus
  acts : ∀ a ∈ r.acts, ∃ c, a = .gteCommand c

def offBus : Motion (Machine γ δ) where
  holds := OffBus
  still _ _ := ⟨rfl, nofun⟩
  trans h k := ⟨k.bus.trans h.bus, fun a ha => (List.mem_append.mp ha).elim (h.acts a) (k.acts a)⟩

def selecting : Motion (Machine γ δ) where
  holds m _ t := Caches.Selected m.cpu.caches t.cpu.caches
  still _ _ := .refl _
  trans := .trans

theorem modifyCaches_offBus (f : Caches → Caches) : Moves (isolating offBus) (modifyCaches f) m :=
  .plain fun hm => ⟨hm, rfl, nofun⟩

theorem write_offBus (vaddr value : UInt32) (w : Width) :
    Moves (isolating offBus) (write vaddr value w) m :=
  write_isolates (fun _ _ => modifyCaches_offBus _) fun _ =>
    isolatedStore_moves (fun _ f _ _ => modifyCaches_offBus f) fun _ _ => modifyCaches_offBus _

theorem isolatedStore_selects (addr value : UInt32) (w : Width) :
    Moves (isolating selecting) (isolatedStore addr value w) m := by
  refine isolatedStore_moves (fun his1 f hdata hbiu => ?_) fun his1 hds => ?_
  · exact .plain fun hm => ⟨hm, hbiu, fun hnot => absurd his1 hnot, fun _ => hdata⟩
  · have hdata : ¬(m.cpu.caches.biu.is1 ∨ ¬m.cpu.caches.biu.ds) := not_or.mpr ⟨his1, fun h => h hds⟩
    exact .plain fun hm => ⟨hm, rfl, fun _ => rfl, fun h => absurd h hdata⟩

theorem write_selects {vaddr : UInt32} (hseg : Segment.of vaddr ≠ .kseg2) (value : UInt32) (w : Width) :
    Moves (isolating selecting) (write vaddr value w) m :=
  write_isolates (fun h => absurd h hseg) fun _ => isolatedStore_selects _ _ _

theorem perform_offBus (h : m.cpu.regs.cop0.status.isc) (o : Operands) (pc : UInt32) (i : Instruction) :
    OffBus m (perform o pc i m).record (perform o pc i m).value.2 :=
  perform_isolates (T := offBus) h (fun k => ⟨k.bus, k.acts⟩)
    (fun v _ value w _ => write_offBus v value w) pc

theorem perform_selects (h : m.cpu.regs.cop0.status.isc) {o : Operands} {i : Instruction}
    (hseg : ∀ v ∈ i.stores o, Segment.of v ≠ .kseg2) (pc : UInt32) :
    Caches.Selected m.cpu.caches (perform o pc i m).value.2.cpu.caches :=
  perform_isolates (T := selecting) h (fun k => .of_eq k.caches)
    (fun v hv value w _ => write_selects (hseg v hv) value w) pc

theorem engine_checkDataBreakpoint (access : Access) (vaddr : UInt32) :
    (checkDataBreakpoint access vaddr m).value.2.gte = m.gte ∧
      (checkDataBreakpoint access vaddr m).value.2.gteState = m.gteState := by
  unfold checkDataBreakpoint
  rw [exec_get_bind_at]
  split
  · show (((if m.cpu.regs.cop0.dcic.tr then _ else _ : Exec γ δ Unit) _).value.2.gte = _) ∧
      ((if m.cpu.regs.cop0.dcic.tr then _ else _ : Exec γ δ Unit) _).value.2.gteState = _
    split <;> exact ⟨rfl, rfl⟩
  · exact ⟨rfl, rfl⟩

/-- In isolation a load makes its checks, and then gives the lane. -/
theorem load_isolated (h : m.cpu.regs.cop0.status.isc) {vaddr : UInt32}
    (hseg : Segment.of vaddr ≠ .kseg2) (w : Width) :
    load vaddr w m = (do
      checkDataBreakpoint .load vaddr
      checkAccess .load vaddr w
      return isolatedLane m.cpu.caches vaddr w : Exec γ δ UInt32) m := by
  unfold load
  cases hu : (checkDataBreakpoint .load vaddr m).value with
  | mk r u =>
    have hinward : Inward m _ u := (checkDataBreakpoint_inward _ _).holds hu
    cases r with
    | error e => rw [exec_bind_error hu, exec_bind_error hu]
    | ok a =>
      rw [exec_bind_ok hu, exec_bind_ok hu]
      cases hv : (checkAccess .load vaddr w u).value with
      | mk r v =>
        cases r with
        | error e => rw [exec_bind_error hv, exec_bind_error hv]
        | ok b =>
          rw [exec_bind_ok hv, exec_bind_ok hv, exec_get_bind_at]
          obtain ⟨rfl, -⟩ := checkAccess_ok hv
          rw [if_neg hseg, if_pos (hinward.status ▸ h), hinward.caches]
          rfl

theorem load_isolated_ok (h : m.cpu.regs.cop0.status.isc) {vaddr value : UInt32} {w : Width}
    (hseg : Segment.of vaddr ≠ .kseg2) (hl : (load vaddr w m).value = (.ok value, t)) :
    value = isolatedLane m.cpu.caches vaddr w ∧ t.gte = m.gte ∧ t.gteState = m.gteState := by
  rw [load_isolated h hseg] at hl
  obtain ⟨_, u, hu, hchecked⟩ := exec_bind_inv hl
  obtain ⟨_, v, hv, hlane⟩ := exec_bind_inv hchecked
  obtain ⟨rfl, -⟩ := checkAccess_ok hv
  have hengine := engine_checkDataBreakpoint (m := m) .load vaddr
  rw [hu] at hengine
  cases hlane
  exact ⟨rfl, hengine⟩

theorem brought_inv {op : Load} {current vaddr value : UInt32}
    (h : (brought op current vaddr m).value = (.ok value, t)) :
    ∃ lane, (load (op.access vaddr) op.width m).value = (.ok lane, t) ∧
      value = op.brings current vaddr lane := by
  cases op with
  | lb | lh | lwl | lwr =>
    obtain ⟨lane, u, hload, hrest⟩ := exec_bind_inv h
    cases hrest
    exact ⟨lane, hload, rfl⟩
  | lbu | lhu | lw => exact ⟨value, h, rfl⟩

/-- What an instruction loads in isolation. -/
theorem perform_isolated_load (h : m.cpu.regs.cop0.status.isc) {o : Operands} {pc : UInt32} {op : Load}
    {f : Immediate} {e : Effect} (hseg : Segment.of (op.access (o.address f)) ≠ .kseg2)
    (hp : (perform o pc (.immediate (.load op) f) m).value = (.ok e, t)) :
    e = .load f.rt (op.brings (o.pending f.rt) (o.address f)
      (isolatedLane m.cpu.caches (op.access (o.address f)) op.width)) := by
  obtain ⟨vaddr, u, hu, hbring⟩ := exec_bind_inv hp
  obtain ⟨value, v, hv, hdone⟩ := exec_bind_inv hbring
  cases hdone
  cases hu
  obtain ⟨lane, hload, rfl⟩ := brought_inv hv
  rw [(load_isolated_ok h hseg hload).1]

/-- The same for the geometry engine. -/
theorem perform_isolated_lwc2 (h : m.cpu.regs.cop0.status.isc) {o : Operands} {pc : UInt32}
    {f : Immediate} {e : Effect} (hseg : Segment.of (o.address f) ≠ .kseg2)
    (hp : (perform o pc (.immediate (.lwc .geometry) f) m).value = (.ok e, t)) :
    t.gteState = m.gte.setData m.gteState f.rt (isolatedLane m.cpu.caches (o.address f) .word) := by
  obtain ⟨_, u, hu, hdone⟩ := exec_bind_inv hp
  cases hdone
  obtain ⟨_, v, hv, hform⟩ := exec_bind_inv hu
  cases requireCop_ok hv
  obtain ⟨vaddr, w, hw, hload⟩ := exec_bind_inv hform
  cases hw
  rw [if_pos rfl] at hload
  obtain ⟨value, x, hx, hset⟩ := exec_bind_inv hload
  cases hset
  obtain ⟨rfl, hgte, hstate⟩ := load_isolated_ok h hseg hx
  show x.gte.setData x.gteState f.rt _ = _
  rw [hgte, hstate]

/-- To get its instruction the processor changes itself and reads the bus. -/
theorem obtain_moves {M : Motion (Machine γ δ)} {pc : UInt32}
    (hcpu : ∀ (t : Machine γ δ) (r : Record) (c : Cpu), r.acts = [] → M.holds t r { t with cpu := c })
    (hread : ∀ t, Moves M (onBus (Bus.read (translate pc) .word)) t)
    (hline : ∀ (c : ICache) t, Moves M (onBus (c.fetch (translate pc) fun a => Bus.read a .word)) t) :
    Moves M (obtain pc) m := by
  have hspend : ∀ t cycles, Moves M (plain (spend cycles) : Exec γ δ Unit) t := fun t cycles =>
    .plain (.get_bind (.lift_bind (hcpu t _ t.cpu (acts_count _ _)) (hcpu t _ _ rfl)))
  have hcheck : Moves M (checkExecutionBreakpoint pc) m := by
    refine .exec_get_bind ?_
    dsimp only
    split
    · refine .exec_bind (.plain (hcpu m _ _ rfl)) fun _ t _ => .exec_lift_bind (M.still t _) ?_
      split
      · exact M.still t []
      · exact .pure _
    · exact .pure _
  refine .exec_bind hcheck fun _ t _ => .exec_get_bind ?_
  dsimp only
  split
  · exact .exec_lift_bind (M.still t _) (.exec_bind (M.still t []) fun _ _ h => by cases h)
  split
  · refine .exec_bind (.plain (hline _ t)) fun r u _ => .exec_bind (.plain (hcpu u _ _ rfl)) fun _ v _ =>
      .exec_bind (answer_moves _ _ _) fun f w _ => ?_
    split
    · exact .exec_bind (hspend w _) fun _ _ _ => .pure _
    · exact .pure _
  · exact .exec_bind (hspend t _) fun _ u _ => .exec_bind (.plain (hread u)) fun _ _ _ => answer_moves _ _ _

theorem obtain_acts {P : Act → Prop} {pc : UInt32} (h : ∀ a : Act, a.Fetches pc → P a) :
    Moves (acting P) (obtain pc) m := by
  refine obtain_moves (fun _ _ _ => acting_of_acts) (fun _ => ?_) fun c _ => ?_
  · exact Bus.read_acts (h _ ⟨_, rfl, rfl⟩)
  · refine Bus.fetchLine_acts c fun w => h _ ⟨_, rfl, ?_⟩
    rw [ICache.Address.toNat_wordAddr]
    omega

def attached : Motion (Machine γ δ) where
  holds m _ t := t.gte = m.gte
  still _ _ := rfl
  trans h k := k.trans h

theorem gte_supplied (m : Machine γ δ) : m.supplied.gte = m.gte := by
  have hobtain : Moves attached (obtain m.cpu.regs.pc) m.opened :=
    obtain_moves (fun _ _ _ _ => rfl) (fun _ => rfl) fun _ _ => rfl
  simp only [supplied]
  split
  · rfl
  · exact hobtain

/-- What a step with isolated caches does to memory. -/
structure Secluded (m : Machine γ δ) : Prop where
  /-- Of all that is on the bus, at most a port takes note that the instruction was fetched from it. -/
  bus : Bus.Kept (portAt m.cpu.regs.pc) m.bus (step m).value.2.bus
  /-- The devices' time does the rest. -/
  update : (next m).value.2.bus =
    (Bus.update (deviceCycles (next m).value.1) (step m).value.2.bus).value.2
  acts : ∀ a ∈ (step m).record.acts, (∃ c, a = .gteCommand c) ∨ a.Fetches m.cpu.regs.pc
  /-- The device is read for instructions only. -/
  device : ∀ a ∈ (next m).record.acts, a.address? ≠ none → a.Fetches m.cpu.regs.pc
  /-- The fetch leaves the data array and the control word to the loads and stores. -/
  supplied : m.supplied.cpu.caches.data = m.cpu.caches.data ∧ m.supplied.cpu.caches.biu = m.cpu.caches.biu
  /-- Apart from its checks, no load fails. -/
  loads : ∀ vaddr w, Segment.of vaddr ≠ .kseg2 →
    Machine.load vaddr w m.supplied = (do
      checkDataBreakpoint .load vaddr
      checkAccess .load vaddr w
      return isolatedLane m.supplied.cpu.caches vaddr w : Exec γ δ UInt32) m.supplied
  load : ∀ op f, m.completed? = some (.immediate (.load op) f) →
    Segment.of (op.access (m.operands.address f)) ≠ .kseg2 →
    m.effect = .load f.rt (op.brings (m.operands.pending f.rt) (m.operands.address f)
      (isolatedLane m.supplied.cpu.caches (op.access (m.operands.address f)) op.width))
  lwc2 : ∀ f, m.completed? = some (.immediate (.lwc .geometry) f) →
    Segment.of (m.operands.address f) ≠ .kseg2 → (step m).value.2.gteState =
      m.gte.setData m.gteState f.rt (isolatedLane m.supplied.cpu.caches (m.operands.address f) .word)
  store : ∀ i, m.completed? = some i → (∀ v ∈ i.stores m.operands, Segment.of v ≠ .kseg2) →
    Caches.Selected m.supplied.cpu.caches (step m).value.2.cpu.caches

section Isolated
variable (h : m.cpu.regs.cop0.status.isc)
include h

theorem isc_supplied : m.supplied.cpu.regs.cop0.status.isc := m.supplied_kept.2 ▸ h

/-- From the fetch on, a step with isolated caches does not use the bus. -/
theorem bus_step : (step m).value.2.bus = m.supplied.bus := by
  have hperform : ∀ i r u, (perform m.operands m.cpu.regs.pc i m.supplied).value = (r, u) →
      u.bus = m.supplied.bus := by
    intro i r u hp
    have hbus := (perform_offBus (isc_supplied h) m.operands m.cpu.regs.pc i).bus
    rwa [hp] at hbus
  have hperformed := m.performed
  generalize m.completed? = c at hperformed
  cases hperformed with
  | unexecuted hbacks => exact hbacks.bus
  | faulted _ hp hbacks | completed _ hp hbacks => exact hbacks.bus.trans (hperform _ _ _ hp)

theorem acts_step : ∀ a ∈ (step m).record.acts, (∃ c, a = .gteCommand c) ∨ a.Fetches m.cpu.regs.pc := by
  refine step_acts (obtain_acts fun a ha => .inr ha) fun word t ht i _ a ha => .inl ?_
  have hstatus : t.cpu.regs.cop0.status = m.cpu.regs.cop0.status := (kept_obtained ht).1.status
  exact (perform_offBus (hstatus ▸ h) _ _ _).acts a ha

theorem device_next : ∀ a ∈ (next m).record.acts, a.address? ≠ none → a.Fetches m.cpu.regs.pc := by
  have hstep : Moves (acting fun a => a.address? ≠ none → a.Fetches m.cpu.regs.pc) step m := by
    intro a ha hnone
    obtain ⟨c, rfl⟩ | hfetch := acts_step h a ha
    · exact absurd rfl hnone
    · exact hfetch
  have hnext : Moves (acting fun a => a.address? ≠ none → a.Fetches m.cpu.regs.pc) next m := by
    refine .get_bind (.bind hstep fun _ t _ => .get_bind (.bind ?_ fun _ _ _ => .pure _))
    refine .onBus (Bus.update_stands _) fun r b hstood a ha hnone => ?_
    cases hb : a.address? with
    | none => exact absurd hb hnone
    | some addr => exact (hstood.2 a ha addr hb).elim
  exact hnext

theorem secluded : m.Secluded := by
  have hkept := m.supplied_kept.1
  have hf := isc_supplied h
  refine ⟨bus_step h ▸ hkept.bus, rfl, acts_step h, device_next h, ⟨hkept.data, hkept.biu⟩,
    fun vaddr w hseg => load_isolated hf hseg w, ?_, ?_, ?_⟩
  · intro op f hi hseg
    obtain ⟨u, hp, -⟩ := performed_of_completed hi
    exact perform_isolated_load hf hseg hp
  · intro f hi hseg
    obtain ⟨u, hp, hbacks⟩ := performed_of_completed hi
    rw [hbacks.gteState, perform_isolated_lwc2 hf hseg hp, gte_supplied, hkept.gteState]
  · intro i hi hseg
    obtain ⟨u, hp, hbacks⟩ := performed_of_completed hi
    have hselected := perform_selects hf hseg m.cpu.regs.pc
    rw [hp] at hselected
    rw [hbacks.caches]
    exact hselected

end Isolated

theorem standing_next (h : m.cpu.regs.cop0.status.isc) : Bus.Standing m.bus (next m).value.2.bus := by
  have hupdate : Moves Bus.standing (Bus.update (deviceCycles (next m).value.1)) (step m).value.2.bus :=
    Bus.update_stands _
  have hkept := (secluded h).bus
  have hstep : Bus.Standing m.bus (step m).value.2.bus := ⟨hkept.ram, hkept.rom, hkept.memoryControl⟩
  rw [(secluded h).update]
  exact hstep.trans hupdate.1

/-- The caches are isolated, and a store and a load of the same word come next. -/
def flushing : Machine Gte.Registers Unit :=
  (booting [0x3c08fffe, 0x35080130, 0x24090088, 0xad090000, 0x3c0a8000, 0x3c090001, 0x40896000,
    0xad490100, 0x8d4b0100] (by decide)).steps 7

/-- Sets the first serial port up to receive at its fastest, isolates the caches, and jumps to the data
register of the port. -/
def confined : Machine Gte.Registers Unit :=
  booting [0x3c0a0001, 0x3c08bf80, 0x3c090005, 0x35290001, 0xad09104c, 0xad091048, 0xad091040, 0x35081040,
    0x408a6000, 0x01000008, 0] (by decide)

/-- A character has arrived by the time of the jump. -/
def summoned : Machine Gte.Registers Unit := ((((confined.steps 8).lined 1).steps 2).lined 0).steps 1

theorem reachable_summoned : summoned.Reachable :=
  .steps 1 (.lined (.steps 2 (.lined (.steps 8 (reachable_booting _ _)) 1)) 0)

end Machine
end R3000
