import R3000.Proofs.HostCalls
import R3000.Proofs.InterruptRegisters
import R3000.Proofs.Runs
import R3000.Proofs.WriteOnlyStores

/-! # Requests last until they are acknowledged

Of all that a step does, only a store to the register of the pending sources takes one of them down. So no
source that has been raised is lost before software acknowledges it, however long the machine runs. -/
namespace R3000

/-- How, where and what an instruction stores, given the data registers of the geometry engine. -/
def Instruction.storing? (i : Instruction) (o : Operands) (data : Reg → UInt32) :
    Option (Store × UInt32 × UInt32) :=
  match i with
  | .immediate (.store op) f => some (op, o.address f, o.gpr f.rt)
  | .immediate (.swc z) f => if z = .geometry then some (.sw, o.address f, data f.rt) else none
  | _ => none

theorem Instruction.effective_of_stores {i : Instruction} {o : Operands} {v : UInt32} (h : v ∈ i.stores o) :
    ∃ vaddr, i.effective? o = some (.store, vaddr) := by
  match i with
  | .immediate (.store op) f => exact ⟨_, rfl⟩
  | .immediate (.swc z) f =>
    simp only [stores, Cop.accesses] at h
    split at h
    · exact ⟨_, if_pos ‹_›⟩
    · cases h
  | .jump _ _ | .register _ _ | .immediate (.alu _) _ | .immediate (.branch _) _
  | .immediate (.load _) _ | .immediate (.lwc _) _ => cases h

theorem Instruction.effective_iff_storing {i : Instruction} {o : Operands} {vaddr : UInt32}
    (data : Reg → UInt32) : i.effective? o = some (.store, vaddr) ↔
      ∃ op value, i.storing? o data = some (op, vaddr, value) := by
  match i with
  | .jump _ _ | .register _ _ | .immediate (.alu _) _ | .immediate (.branch _) _
  | .immediate (.load _) _ => simp [effective?, storing?]
  | .immediate (.store op) f => simp [effective?, storing?]
  | .immediate (.lwc z) f | .immediate (.swc z) f =>
    simp only [effective?, storing?]
    split <;> simp

namespace Interrupt.Controller

/-- What is stored acknowledges a source: it reaches the source in the register of the pending ones and has
zero for it, while the source is enabled. -/
def AcknowledgedBy (c : Controller) (stored : Option (Store × UInt32 × UInt32)) (k : Nat) : Prop :=
  Word.bit c.enabled k ∧ ∃ op vaddr value, stored = some (op, vaddr, value) ∧
    Lane.base (translate vaddr) = Register.pending.address ∧ op.reaches vaddr k ∧ op.bit vaddr value k = false

theorem acknowledgedBy_some {c : Controller} {op : Store} {vaddr value : UInt32} {k : Nat}
    (hr : Lane.base (translate vaddr) = Register.pending.address) :
    c.AcknowledgedBy (some (op, vaddr, value)) k ↔
      op.reaches vaddr k ∧ op.bit vaddr value k = false ∧ Word.bit c.enabled k := by
  refine ⟨?_, fun ⟨hreach, hvalue, henabled⟩ => ⟨henabled, op, vaddr, value, rfl, hr, hreach, hvalue⟩⟩
  rintro ⟨henabled, _, _, _, ⟨⟩, -, hreach, hvalue⟩
  exact ⟨hreach, hvalue, henabled⟩

end Interrupt.Controller

namespace Bus
variable {δ : Type} {b t : Bus δ} {r : Record} {offset addr : UInt32}

def holding : Motion (Bus δ) where
  holds b _ t := ∀ k, Word.bit b.int.pending k → Word.bit t.int.pending k
  still _ _ _ hk := hk
  trans h k j hj := k j (h j hj)

theorem holding_of_int (h : t.int = b.int) : holding.holds b r t := fun k hk => by rwa [h]

theorem holding_of_raising {α : Type} {x : Bus.Op δ α} (h : Moves raising x b) : Moves holding x b :=
  fun _ => Interrupt.Controller.Raised.pending h

theorem word_of_pending (h : Group.of? offset = some (.interrupt 0)) :
    Lane.base (offset + ioBase) = Interrupt.Register.pending.address := by
  have hat := Group.at_of h
  simp only [Group.At] at hat
  have hbase : ioBase.toNat = 0x1f801000 ∧ Interrupt.Register.pending.address.toNat = 0x1f801070 := by decide
  rw [← UInt32.toNat_inj, Lane.toNat_base, UInt32.toNat_add, hbase.1, hbase.2]
  omega

theorem writeGroup_holds {g : Group} (hg : Group.of? offset = some g)
    (h : Lane.base (offset + ioBase) ≠ Interrupt.Register.pending.address) (value : UInt32) (w : Width) :
    Moves holding (writeGroup offset value w g) b := by
  cases g with
  | memoryControl index => exact holding_of_int rfl
  | ramSize => exact holding_of_int rfl
  | interrupt index =>
    have hpending : ∀ value access, (b.int.write index value access).value.pending = b.int.pending := by
      intro value access
      refine Interrupt.Controller.pending_write ?_ value access b.int
      rintro rfl
      exact h (word_of_pending hg)
    exact fun k hk => (congrArg (Word.bit · k) (hpending _ _)).trans hk
  | serial port reg => exact holding_of_raising (serialWrite_raises port reg value w)
  | dma reg => exact .bind (holding_of_int rfl) fun _ _ _ => holding_of_raising (dmaWrite_raises _ _)

theorem write_holds (h : Lane.base addr ≠ Interrupt.Register.pending.address) (value : UInt32) (w : Width) :
    Moves holding (write addr value w) b := by
  refine write_moves (fun _ _ _ => holding_of_int rfl) (fun offset g hr hg => ?_) fun _ => holding_of_int rfl
  refine writeGroup_holds hg ?_ value w
  rwa [← Region.of_io hr, UInt32.sub_add_cancel]

end Bus

namespace Machine
variable {γ δ : Type} {m t u : Machine γ δ} {i : Instruction} {o : Operands} {op : Store}
  {pc vaddr value : UInt32} {reg : Interrupt.Register} {k : Nat}

def holding : Motion (Machine γ δ) where
  holds m _ t := ∀ k, Word.bit m.bus.int.pending k → Word.bit t.bus.int.pending k
  still _ _ _ hk := hk
  trans h k j hj := k j (h j hj)

theorem holding_of_bus {r : Record} (h : t.bus = m.bus) : holding.holds m r t := fun k hk => by rwa [h]

/-- An instruction that does not store to the register of the pending sources takes none of them down. -/
theorem perform_holds (h : ∀ vaddr, i.effective? o = some (.store, vaddr) →
      Lane.base (translate vaddr) ≠ Interrupt.Register.pending.address) :
    Moves holding (perform o pc i) m := by
  have hcaches : ∀ f (t : Machine γ δ), Moves holding (modifyCaches f) t := fun _ _ =>
    .plain (holding_of_bus rfl)
  have hinward : ∀ {m : Machine γ δ} {r t}, Inward m r t → holding.holds m r t := fun h =>
    holding_of_bus h.bus
  refine perform_moves hinward (fun v w _ t => ?_) (fun v hv value w t => ?_) pc fun f _ =>
    holding_of_bus (performCop0_untouched o pc f).bus
  · refine load_moves hinward hcaches fun t => .onBus (Bus.read_kept (translate v) w) fun r b hkept => ?_
    exact Bus.holding_of_int (r := r) hkept.1.int
  · obtain ⟨vaddr, he⟩ := Instruction.effective_of_stores hv
    refine write_moves hcaches fun t => .onBus (Bus.write_holds ?_ value w) fun _ _ hb => hb
    rw [base_stores he v hv]
    exact h vaddr he

/-- An instruction that stores to a register of the interrupt controller writes what its store reaches. -/
theorem perform_register (hs : i.storing? o (m.gte.data m.gteState) = some (op, vaddr, value))
    (hr : Lane.base (translate vaddr) = reg.address) (hisc : m.cpu.regs.cop0.status.isc = false) :
    WritesRegister reg (op.reaches vaddr) (op.bit vaddr value) (perform o pc i) m := by
  match i with
  | .jump _ _ | .register _ _ | .immediate (.alu _) _ | .immediate (.branch _) _
  | .immediate (.load _) _ | .immediate (.lwc _) _ => cases hs
  | .immediate (.store op) f =>
    cases hs
    refine .after (formAddress_inward o f) fun v t ht => ?_
    cases ht
    exact (executeStore_register hr hisc op _).before _
  | .immediate (.swc z) f =>
    simp only [Instruction.storing?] at hs
    split at hs
    · rename_i hz
      subst hz
      cases hs
      refine .before (.after (requireCop_inward .geometry) fun a t ht => ?_) _
      cases requireCop_ok ht
      refine .after (formAddress_inward o f) fun v u hu => ?_
      cases hu
      refine .after (.plain awaitGte_inward) fun _ u hu => ?_
      have hawait : u = (awaitGte m).value.2 := (congrArg Prod.snd hu).symm
      obtain ⟨hgte, hstate⟩ : u.gte = m.gte ∧ u.gteState = m.gteState := hawait ▸ awaitGte_engine m
      have hstatus : u.cpu.regs.cop0.status.isc = false := by rwa [hawait, awaitGte_regs]
      refine .after (inward.still u []) fun v w hw => ?_
      cases hw
      rw [hgte, hstate]
      exact executeStore_register hr hstatus .sw _
    · cases hs

/-- What an instruction that completes leaves pending. -/
theorem perform_pending {e : Effect} (hk : k < 32) (h : Word.bit m.bus.int.pending k)
    (hisc : m.cpu.regs.cop0.status.isc = false) (hp : (perform o pc i m).value = (.ok e, t)) :
    Word.bit t.bus.int.pending k ↔ ¬m.bus.int.AcknowledgedBy (i.storing? o (m.gte.data m.gteState)) k := by
  by_cases hreg : ∃ op vaddr value, i.storing? o (m.gte.data m.gteState) = some (op, vaddr, value) ∧
      Lane.base (translate vaddr) = Interrupt.Register.pending.address
  · obtain ⟨op, vaddr, value, hs, hr⟩ := hreg
    obtain ⟨d, hbus, hwritten⟩ := (perform_register hs hr hisc).written _ _ hp
    rw [hbus, hs, Interrupt.Controller.acknowledgedBy_some hr]
    refine (hwritten.pending k hk).trans ?_
    simp [h]
  · have hholds : Moves holding (perform o pc i) m := perform_holds fun vaddr he hr => by
      obtain ⟨op, value, hs⟩ := (Instruction.effective_iff_storing _).mp he
      exact hreg ⟨op, vaddr, value, hs, hr⟩
    refine iff_of_true (hholds.holds hp k h) ?_
    rintro ⟨-, op, vaddr, value, hs, hr, -⟩
    exact hreg ⟨op, vaddr, value, hs, hr⟩

def storing? (m : Machine γ δ) : Option (Store × UInt32 × UInt32) :=
  m.completed?.bind fun i => i.storing? m.operands (m.gte.data m.gteState)

/-- The next step acknowledges a source. With isolated caches no store does. -/
def Acknowledges (m : Machine γ δ) (k : Nat) : Prop :=
  m.cpu.regs.cop0.status.isc = false ∧ m.bus.int.AcknowledgedBy m.storing? k

theorem not_acknowledges_of_none (h : m.completed? = none) : ¬m.Acknowledges k := by
  rintro ⟨-, -, op, vaddr, value, hs, -⟩
  simp only [storing?] at hs
  rw [h] at hs
  cases hs

/-- Until the devices are given their time, a step takes down what it acknowledges and nothing else. -/
theorem pending_step (hk : k < 32) (h : Word.bit m.bus.int.pending k) :
    Word.bit (step m).value.2.bus.int.pending k ↔ ¬m.Acknowledges k := by
  obtain ⟨hkept, hstatus⟩ := m.supplied_kept
  have hint := hkept.bus.int
  have hstill : (step m).value.2.bus.int = m.bus.int → ¬m.Acknowledges k →
      (Word.bit (step m).value.2.bus.int.pending k ↔ ¬m.Acknowledges k) := fun hs =>
    iff_of_true (hs ▸ h)
  have hperformed := m.performed
  generalize hc : m.completed? = c at hperformed
  cases hperformed with
  | unexecuted hbacks => exact hstill (by rw [hbacks.bus, hint]) (not_acknowledges_of_none hc)
  | faulted hraised =>
    -- exceptions are precise, so what a store has begun to write does not show
    have hfaithful : Kept _ m (attempt m).value.2 := (attempt_faithful hraised).1
    exact hstill (by rw [m.attempt_backs.bus, hfaithful.bus.int]) (not_acknowledges_of_none hc)
  | @completed i t u hu hp hbacks =>
    cases hisc : m.cpu.regs.cop0.status.isc with
    | true =>
      -- the store, if it is one, is kept in the caches
      have hoff := (perform_offBus (hstatus ▸ hisc) m.operands m.cpu.regs.pc i).bus
      rw [hp] at hoff
      refine hstill (by rw [hbacks.bus, hoff, hint]) fun hack => ?_
      exact Bool.false_ne_true (hack.1.symm.trans hisc)
    | false =>
      have hstoring : m.storing? = i.storing? m.operands (m.gte.data m.gteState) := by
        rw [storing?, hc]
        rfl
      have hpending := perform_pending hk (hint ▸ h) (hstatus ▸ hisc) hp
      rw [m.gte_supplied, hkept.gteState, hint, ← hstoring] at hpending
      rw [hbacks.bus, hpending, Acknowledges, and_iff_right hisc]

theorem pending_next (hk : k < 32) (h : Word.bit m.bus.int.pending k) (hn : ¬m.Acknowledges k) :
    Word.bit (next m).value.2.bus.int.pending k := by
  have hraises : Moves Bus.raising (Bus.update (deviceCycles (next m).value.1)) (step m).value.2.bus :=
    Bus.update_raises _
  exact Interrupt.Controller.Raised.pending hraises ((pending_step hk h).mpr hn)

/-- A host raises sources, and takes none down but where it resets the machine. -/
theorem Handled.int {γ' δ' : Type} {t : Machine γ' δ'} (h : Handled m t) :
    m.bus.int.Raised t.bus.int ∨ t.bus.int = {} := by
  cases h with
  | raise _ sources => exact .inl (Bus.raise_raises sources)
  | serialInput _ port mask levels => exact .inl (Bus.serialInput_raises port mask levels)
  | reset => exact .inr rfl
  | loadRom _ image =>
    obtain ⟨rom, hrom⟩ := loadRom_frame m image
    rw [hrom]
    exact .inl .refl
  | poke _ addr words =>
    obtain ⟨ram, hram⟩ := poke_frame m addr words
    rw [hram]
    exact .inl .refl
  | attachGte | attachDevice | listen | bindReader | bindWriter => exact .inl .refl

/-- What becomes of a machine as long as no step acknowledges a source and no host resets the controller. -/
inductive Unacknowledged (k : Nat) (m : Machine γ δ) : {γ' δ' : Type} → Machine γ' δ' → Prop
  | refl : Unacknowledged k m m
  | next {γ' δ' : Type} {t : Machine γ' δ'} :
      Unacknowledged k m t → ¬t.Acknowledges k → Unacknowledged k m (next t).value.2
  | handled {γ' δ' γ'' δ'' : Type} {t : Machine γ' δ'} {u : Machine γ'' δ''} :
      Unacknowledged k m t → Handled t u → u.bus.int ≠ {} → Unacknowledged k m u

namespace Unacknowledged

theorem after {n : Nat} (h : ∀ j < n, ¬(m.after j).Acknowledges k) : Unacknowledged k m (m.after n) := by
  induction n with
  | zero => exact .refl
  | succ n ih => exact .next (ih fun j hj => h j (Nat.lt_succ_of_lt hj)) (h n (Nat.lt_succ_self n))

theorem pending {γ' δ' : Type} {t : Machine γ' δ'} (h : Unacknowledged k m t) (hk : k < 32)
    (hm : Word.bit m.bus.int.pending k) : Word.bit t.bus.int.pending k := by
  induction h with
  | refl => exact hm
  | next _ hn ih => exact pending_next hk ih hn
  | handled _ hcall hreset ih => exact (hcall.int.resolve_right hreset).pending ih

end Unacknowledged

/-- A store to a register of the interrupt controller is refused only by its checks; else it acknowledges
just the pending sources that it reaches, writes as zero and finds enabled, or replaces just the enables that
it reaches. A source that is raised is pending until a step acknowledges it, whatever else goes on. And stores
and raises that are repeated at once change nothing. -/
theorem requests_last (m : Machine γ δ) :
    (∀ reg op vaddr value, Lane.base (translate vaddr) = Interrupt.Register.address reg →
      m.cpu.regs.cop0.status.isc = false →
        (executeStore op vaddr value m).value.1 = (checkStore op vaddr m).value.1 ∧
          WritesRegister reg (op.reaches vaddr) (op.bit vaddr value) (executeStore op vaddr value) m ∧
          ∀ t, (executeStore op vaddr value m).value = (.ok (), t) →
            (executeStore op vaddr value t).value.2.bus = t.bus) ∧
      (∀ sources, ∃ d, (onBus (Bus.raise sources) m).value.2 = { m with bus := { m.bus with int := d } } ∧
        d.enabled = m.bus.int.enabled ∧ d.Shown ∧
        (∀ k, Word.bit d.pending k = (Word.bit m.bus.int.pending k || Word.bit sources k)) ∧
        (d.raise sources).value = d) ∧
      ∀ k < 32, Word.bit m.bus.int.pending k →
        (Word.bit (step m).value.2.bus.int.pending k ↔ ¬m.Acknowledges k) ∧
          (∀ budget, ∃ n, (run budget m).value.2 = m.after n ∧
            ((∀ j < n, ¬(m.after j).Acknowledges k) → Word.bit (m.after n).bus.int.pending k)) ∧
          ∀ {γ' δ' : Type} (t : Machine γ' δ'), Unacknowledged k m t → Word.bit t.bus.int.pending k := by
  refine ⟨fun reg op vaddr value hr hisc => ⟨executeStore_result hr hisc op value,
    executeStore_register hr hisc op value, fun t ht => executeStore_again hr hisc ht⟩, fun sources => ?_,
    fun k hk h => ⟨pending_step hk h, fun budget => ?_, fun t ht => ht.pending hk h⟩⟩
  · exact ⟨(m.bus.int.raise sources).value, rfl, by rw [Interrupt.Controller.value_raise],
      Interrupt.Controller.shown_refresh _, m.bus.int.bit_raise sources, m.bus.int.raise_raise sources⟩
  · obtain ⟨n, hn⟩ := exists_after_run m budget
    exact ⟨n, hn, fun hj => (Unacknowledged.after hj).pending hk h⟩

/-- Two sources are pending and enabled, and a store of a byte comes next that reaches one of them. -/
def requesting : Machine Gte.Registers Unit :=
  (onBus (Bus.raise 0x401)
    ((booting [0x3c091f80, 0x34080401, 0xad281074, 0xa1201071] (by decide)).steps 3)).value.2

set_option maxRecDepth 10000 in
theorem requests_last_requesting : requesting.Reachable ∧ requesting.bus.int.pending = 0x401 ∧
    requesting.storing? = some (.sb, 0x1f801071, 0) ∧
    (∃ t, (executeStore .sb 0x1f801071 0 requesting).value = (.ok (), t) ∧ t.bus.int.pending = 1 ∧
      (executeStore .sb 0x1f801071 0 t).value.2.bus = t.bus) ∧
    ¬Word.bit (step requesting).value.2.bus.int.pending 10 ∧
    Word.bit (requesting.after 1).bus.int.pending 0 := by
  have hreach : requesting.Reachable := ((reachable_booting _ _).steps 3).raise 0x401
  have hstoring : requesting.storing? = some (.sb, 0x1f801071, 0) := by decide +kernel
  have hisc : requesting.cpu.regs.cop0.status.isc = false := by decide +kernel
  have henabled : Word.bit requesting.bus.int.enabled 10 := by decide +kernel
  have hbase : Lane.base (translate 0x1f801071) = Interrupt.Register.pending.address := by decide
  obtain ⟨hstore, -, hpending⟩ := requests_last requesting
  obtain ⟨hresult, -, hagain⟩ := hstore .pending .sb 0x1f801071 0 hbase hisc
  obtain ⟨hten, -⟩ := hpending 10 (by decide) (by decide +kernel)
  obtain ⟨-, -, hzero⟩ := hpending 0 (by decide) (by decide +kernel)
  have hiff : ∀ k, requesting.bus.int.AcknowledgedBy (some (.sb, 0x1f801071, 0)) k ↔ _ := fun _ =>
    Interrupt.Controller.acknowledgedBy_some hbase
  have hacknowledges : requesting.Acknowledges 10 := ⟨hisc, by
    rw [hstoring, hiff]
    exact ⟨by decide, by decide, henabled⟩⟩
  have hspares : ¬requesting.Acknowledges 0 := by
    rw [Acknowledges, hstoring, hiff]
    exact fun h => absurd h.2.1 (by decide)
  have hdone : (executeStore .sb 0x1f801071 0 requesting).value =
      (.ok (), (executeStore .sb 0x1f801071 0 requesting).value.2) :=
    Prod.ext (hresult.trans rfl) rfl
  exact ⟨hreach, by decide +kernel, hstoring, ⟨_, hdone, by decide +kernel, hagain _ hdone⟩,
    fun h => hten.mp h hacknowledges, hzero _ (.next .refl hspares)⟩

end Machine
end R3000
