import R3000.Proofs.MulDivCourse

/-! # How long a step takes

Unless a counter overruns, a step takes the cycle of every instruction and at most four more for its
word. Then it may wait, either for a result or until the geometry engine is free, and never for both. -/
namespace R3000

namespace Clock
variable {lo hi lo' hi' : Nat} {c d e : Clock}

/-- The second clock is between `lo` and `hi` cycles later, none of them a wait for the geometry engine. -/
structure Passed (lo hi : Nat) (c d : Clock) : Prop where
  least : c.cycles.toNat + lo ≤ d.cycles.toNat
  most : d.cycles.toNat ≤ c.cycles.toNat + hi
  engine : d.gteReadyAt = c.gteReadyAt

structure Waited (c d : Clock) : Prop where
  least : c.cycles.toNat ≤ d.cycles.toNat
  most : d.cycles.toNat ≤ c.horizon
  engine : d.gteReadyAt = c.gteReadyAt

/-- The second clock is some cycles later, or may have waited until the geometry engine is free. In the
end the engine may have been given a command. -/
structure Took (lo hi : Nat) (c d : Clock) : Prop where
  least : c.cycles.toNat + lo ≤ d.cycles.toNat
  most : d.cycles.toNat ≤ max (c.cycles.toNat + hi) c.gteReadyAt.toNat
  engine : d.gteReadyAt = c.gteReadyAt ∨ d.gteReadyAt.toNat ≤ d.cycles.toNat + 0xffffffff

theorem Passed.refl (hi : Nat) (c : Clock) : Passed 0 hi c c :=
  ⟨Nat.le_refl _, Nat.le_add_right _ _, rfl⟩

theorem Passed.trans (h : Passed lo hi c d) (k : Passed lo' hi' d e) :
    Passed (lo + lo') (hi + hi') c e := by
  have ⟨hleast, hmost, hengine⟩ := h
  have ⟨kleast, kmost, kengine⟩ := k
  exact ⟨by omega, by omega, kengine.trans hengine⟩

theorem Passed.then_took (h : Passed lo hi c d) (k : Took lo' hi' d e) :
    Took (lo + lo') (hi + hi') c e := by
  have ⟨hleast, hmost, hengine⟩ := h
  have ⟨kleast, kmost, kengine⟩ := k
  rw [hengine] at kmost kengine
  exact ⟨by omega, by omega, kengine⟩

theorem Passed.took (h : Passed lo hi c d) : Took lo hi c d :=
  ⟨h.least, Nat.le_trans h.most (Nat.le_max_left _ _), .inl h.engine⟩

theorem Passed.atMost (h : Passed lo hi c d) : Passed 0 hi c d :=
  ⟨Nat.le_of_add_right_le h.least, h.most, h.engine⟩

theorem Waited.refl (c : Clock) : Waited c c := ⟨Nat.le_refl _, Nat.le_max_left _ _, rfl⟩

theorem Waited.trans (h : Waited c d) (k : Waited d e) : Waited c e := by
  have ⟨hleast, hmost, hengine⟩ := h
  have ⟨kleast, kmost, kengine⟩ := k
  have hhorizon : e.cycles.toNat ≤ c.horizon := by
    simp only [horizon] at hmost kmost ⊢
    rw [hengine] at kmost
    omega
  exact ⟨Nat.le_trans hleast kleast, hhorizon, kengine.trans hengine⟩

theorem Took.refl (hi : Nat) (c : Clock) : Took 0 hi c c := (Passed.refl hi c).took

theorem Took.mono (h : Took lo hi c d) (hhi : hi ≤ hi') : Took lo hi' c d := by
  have ⟨hleast, hmost, hengine⟩ := h
  exact ⟨hleast, by omega, hengine⟩

theorem Took.then_passed (h : Took lo hi c d) (k : Passed 0 0 d e) : Took lo hi c e := by
  have ⟨hleast, hmost, hengine⟩ := h
  have ⟨kleast, kmost, kengine⟩ := k
  refine ⟨by omega, by omega, hengine.imp kengine.trans fun hlate => ?_⟩
  rw [kengine]
  omega

theorem Waited.took (h : Waited c d) : Took 0 0 c d :=
  ⟨h.least, h.most, .inl h.engine⟩

theorem Waited.then_took (h : Waited c d) (k : Took 0 0 d e) : Took 0 0 c e := by
  have ⟨hleast, hmost, hengine⟩ := h
  have ⟨kleast, kmost, kengine⟩ := k
  simp only [horizon] at hmost
  rw [hengine] at kmost kengine
  exact ⟨by omega, by omega, kengine⟩

end Clock

theorem count_exact {n amount : UInt64} (h : Fault.counter ∉ (count n amount).record.faults) :
    (count n amount).value.toNat = n.toNat + amount.toNat := by
  by_cases hfits : n.toNat + amount.toNat < 0x10000000000000000
  · obtain ⟨hcount, hsum⟩ := count_of_lt n amount hfits
    rw [hcount, hsum]
  · refine absurd ?_ h
    simp [count, require, hfits]

namespace Machine
variable {γ δ α β : Type} {m t : Machine γ δ}

/-- Unless a counter overruns, the clocks before and after the computation are so related. -/
def Clocked (R : Clock → Clock → Prop) (x : Run γ δ α) (m : Machine γ δ) : Prop :=
  Fault.counter ∉ (x m).record.faults → R m.cpu.clock (x m).value.2.cpu.clock

namespace Clocked
variable {R S T : Clock → Clock → Prop}

theorem of_eq (hR : ∀ c, R c c) {x : Run γ δ α} (hx : (x m).value.2.cpu.clock = m.cpu.clock) :
    Clocked R x m := fun _ => by
  rw [hx]
  exact hR _

theorem mono {x : Run γ δ α} (hx : Clocked R x m) (h : ∀ c d, R c d → S c d) : Clocked S x m :=
  fun hcounter => h _ _ (hx hcounter)

theorem bind {x : Run γ δ α} {f : α → Run γ δ β} (hT : ∀ c d e, R c d → S d e → T c e)
    (hx : Clocked R x m) (hf : ∀ a t, (x m).value = (a, t) → Clocked S (f a) t) :
    Clocked T (x >>= f) m := by
  intro hcounter
  have hparts : Fault.counter ∉ (x m).record.faults ++ (f (x m).value.1 (x m).value.2).record.faults :=
    hcounter
  rw [List.mem_append, not_or] at hparts
  exact hT _ _ _ (hx hparts.1) (hf _ _ rfl hparts.2)

theorem get_bind {f : Machine γ δ → Run γ δ β} (hf : Clocked R (f m) m) : Clocked R (get >>= f) m :=
  hf

/-- What follows a count may rely on its being exact. -/
theorem lift_bind {x : Reported α} {f : α → Run γ δ β}
    (hf : Fault.counter ∉ x.record.faults → Clocked R (f x.value) m) :
    Clocked R (liftM x >>= f) m := fun hcounter =>
  hf (fun h => hcounter (List.mem_append_left _ (List.mem_append_left _ h)))
    fun h => hcounter (List.mem_append_right _ h)

/-- What leaves the clock alone does not count. -/
theorem still_bind {x : Run γ δ α} {f : α → Run γ δ β} (hx : (x m).value.2.cpu.clock = m.cpu.clock)
    (hf : ∀ a t, (x m).value = (a, t) → Clocked R (f a) t) : Clocked R (x >>= f) m :=
  bind (R := Eq) (fun _ _ _ h k => h ▸ k) (of_eq (fun _ => rfl) hx) hf

theorem then_still {x : Run γ δ α} {f : α → Run γ δ β} (hx : Clocked R x m)
    (hf : ∀ a t, (f a t).value.2.cpu.clock = t.cpu.clock) : Clocked R (x >>= f) m :=
  bind (S := Eq) (fun _ _ _ h k => k ▸ h) hx fun a t _ => of_eq (fun _ => rfl) (hf a t)

theorem plain {x : Run γ δ α} (hx : Clocked R x m) : Clocked R (R3000.plain x) m :=
  then_still (f := fun a => (Pure.pure (.ok a) : Run γ δ (Except Exception α))) hx fun _ _ => rfl

theorem exec_bind {x : Exec γ δ α} {f : α → Exec γ δ β} (hT : ∀ c d e, R c d → S d e → T c e)
    (hS : ∀ c, S c c) (hx : Clocked R (x : Run γ δ _) m)
    (hf : ∀ a t, (x m).value = (.ok a, t) → Clocked S (f a : Run γ δ _) t) :
    Clocked T (x >>= f : Exec γ δ β) m := by
  refine bind (f := ExceptT.bindCont f) hT hx ?_
  rintro (e | a) t h
  · exact of_eq hS rfl
  · exact hf a t h

theorem exec_get_bind {f : Machine γ δ → Exec γ δ β} (hf : Clocked R (f m : Run γ δ _) m) :
    Clocked R (get >>= f : Exec γ δ β) m :=
  hf

theorem exec_lift_bind {x : Reported α} {f : α → Exec γ δ β}
    (hf : Fault.counter ∉ x.record.faults → Clocked R (f x.value : Run γ δ _) m) :
    Clocked R (liftM x >>= f : Exec γ δ β) m := fun hcounter =>
  hf (fun h => hcounter
      (List.mem_append_left _ (List.mem_append_left _ (List.mem_append_left _ h))))
    fun h => hcounter (List.mem_append_right _ h)

theorem exec_still_bind {x : Exec γ δ α} {f : α → Exec γ δ β} (hR : ∀ c, R c c)
    (hx : (x m).value.2.cpu.clock = m.cpu.clock)
    (hf : ∀ a t, (x m).value = (.ok a, t) → Clocked R (f a : Run γ δ _) t) :
    Clocked R (x >>= f : Exec γ δ β) m :=
  exec_bind (R := Eq) (fun _ _ _ h k => h ▸ k) hR (of_eq (fun _ => rfl) hx) hf

theorem exec_then_still {x : Exec γ δ α} {f : α → Exec γ δ β} (hx : Clocked R (x : Run γ δ _) m)
    (hf : ∀ a t, (f a t).value.2.cpu.clock = t.cpu.clock) : Clocked R (x >>= f : Exec γ δ β) m :=
  exec_bind (S := Eq) (fun _ _ _ h k => k ▸ h) (fun _ => rfl) hx fun a t _ =>
    of_eq (fun _ => rfl) (hf a t)

theorem spend (cycles : UInt64) : Clocked (Clock.Passed cycles.toNat cycles.toNat) (spend cycles) m := by
  refine .get_bind (.lift_bind fun hcount _ => ?_)
  have hsum := count_exact hcount
  exact ⟨Nat.le_of_eq hsum.symm, Nat.le_of_eq hsum, rfl⟩

theorem opening : Clocked (Clock.Passed 1 1) (opening (γ := γ) (δ := δ)) m :=
  .still_bind rfl fun _ _ _ => .still_bind rfl fun _ _ _ =>
    .then_still (spend instructionCost) fun _ _ => rfl

end Clocked

theorem clock_answer (access : Access) (vaddr : UInt32) (r : Except BusError α) :
    (answer access vaddr r m).value.2.cpu.clock = m.cpu.clock := by
  cases r <;> rfl

theorem clock_checkExecutionBreakpoint (pc : UInt32) :
    (checkExecutionBreakpoint pc m).value.2.cpu.clock = m.cpu.clock := by
  show ((if m.cpu.regs.cop0.stopsAt pc then _ else _ : Exec γ δ Unit) m).value.2.cpu.clock = _
  split
  · show ((if m.cpu.regs.cop0.dcic.tr then _ else _ : Exec γ δ Unit) _).value.2.cpu.clock = _
    split <;> rfl
  · rfl

namespace Clocked

/-- A fetch takes time, where it passes by the instruction cache or fills it. -/
theorem fetch (pc : UInt32) : Clocked (Clock.Passed 0 4) (fetch (γ := γ) (δ := δ) pc : Run γ δ _) m := by
  have hstill := Clock.Passed.refl 4
  refine .exec_get_bind ?_
  dsimp only
  split
  · exact .of_eq hstill rfl
  split
  · refine .exec_still_bind hstill rfl fun r t _ => .exec_still_bind hstill rfl fun _ t _ =>
      .exec_still_bind hstill (clock_answer _ _ _) fun f t _ => ?_
    split
    · exact .exec_then_still ((spend refillCost).plain.mono fun _ _ h => h.atMost) fun _ _ => rfl
    · exact .of_eq hstill rfl
  · exact .exec_then_still ((spend uncachedFetchCost).plain.mono fun _ _ h => h.atMost) fun _ _ =>
      clock_answer _ _ _

theorem obtain (pc : UInt32) :
    Clocked (Clock.Passed 0 4) (obtain (γ := γ) (δ := δ) pc : Run γ δ _) m :=
  .exec_still_bind (Clock.Passed.refl 4) (clock_checkExecutionBreakpoint pc) fun _ _ _ => fetch pc

end Clocked

def waiting (γ δ : Type) : Motion (Machine γ δ) where
  holds m _ t := m.cpu.clock.Waited t.cpu.clock
  still _ _ := .refl _
  trans := .trans

theorem awaitGte_waiting : Moves (waiting γ δ) awaitGte m := by
  refine .get_bind ?_
  dsimp only
  split
  · have hlt := UInt64.lt_iff_toNat_lt.mp ‹_›
    exact .quiet_bind (.note _) ⟨Nat.le_of_lt hlt, Nat.le_max_right _ _, rfl⟩
  · exact .pure _

theorem lenient_waiting : Lenient (waiting γ δ) where
  cpu m c hc _ := by
    show m.cpu.clock.Waited c.clock
    rw [hc]
    exact .refl _
  bus _ _ _ _ := .refl _
  gte _ _ := .refl _
  await _ := awaitGte_waiting

namespace Clocked

theorem of_waiting {x : Run γ δ α} (hx : Moves (waiting γ δ) x m) : Clocked Clock.Waited x m :=
  fun _ => hx

theorem waiting_bind {x : Exec γ δ α} {f : α → Exec γ δ β} (hx : Moves (waiting γ δ) x m)
    (hf : ∀ a t, (x m).value = (.ok a, t) → Clocked (Clock.Took 0 0) (f a : Run γ δ _) t) :
    Clocked (Clock.Took 0 0) (x >>= f : Exec γ δ β) m :=
  exec_bind (fun _ _ _ h => h.then_took) (Clock.Took.refl 0) (of_waiting hx) hf

theorem setReadyAt (s : γ) (latency : UInt32) : Clocked (Clock.Took 0 0)
    (do
      modify fun m => { m with gteState := s }
      let clock := (← get).cpu.clock
      let gteReadyAt ← count clock.cycles latency.toUInt64
      R3000.plain (setClock { clock with gteReadyAt }) : Exec γ δ Unit) m := by
  refine .exec_still_bind (Clock.Took.refl 0) rfl fun _ t _ =>
    .exec_get_bind (.exec_lift_bind fun hcount => .plain fun _ => ?_)
  have hsum := count_exact hcount
  have hlatency : latency.toUInt64.toNat = latency.toNat := UInt32.toNat_toUInt64 latency
  have hlt := latency.toNat_lt
  refine ⟨Nat.le_refl _, Nat.le_max_left _ _, .inr ?_⟩
  show (count t.cpu.clock.cycles latency.toUInt64).value.toNat ≤ t.cpu.clock.cycles.toNat + _
  omega

/-- The engine is free again as late as its answer says. -/
theorem commandGte (f : Register) :
    Clocked (Clock.Took 0 0) (commandGte (γ := γ) (δ := δ) f : Run γ δ _) m := by
  refine waiting_bind (.plain awaitGte_waiting) fun _ t _ =>
    .exec_lift_bind fun _ => .exec_get_bind ?_
  dsimp only
  split
  · exact .exec_lift_bind fun _ => setReadyAt _ _
  · exact setReadyAt _ _

/-- A read of HI or LO waits for the result that it reads. -/
theorem readResult (rd : Reg) (read : Machine γ δ → UInt32) :
    Clocked (Clock.Took 0 m.results.stall.toNat)
      (do
        let stall ← resolveMulDiv
        R3000.plain (Machine.spend stall.toUInt64)
        setGpr rd (read (← get)) : Exec γ δ Unit) m := by
  have hresolve := value_resolveMulDiv m
  refine .exec_still_bind (Clock.Took.refl _) (by rw [hresolve]; rfl) fun stall t ht => ?_
  obtain rfl : m.results.stall = stall := Except.ok.inj (congrArg Prod.fst (hresolve.symm.trans ht))
  refine .exec_then_still ((spend _).plain.mono fun _ _ h => ?_) fun _ _ => rfl
  rw [UInt32.toNat_toUInt64] at h
  exact h.atMost.took

theorem execute (i : Instruction) (pc : UInt32) :
    Clocked (Clock.Took 0 m.results.stall.toNat) (execute (γ := γ) (δ := δ) i pc : Run γ δ _) m := by
  by_cases ht : Timed i
  · match i, ht with
    | .register .mfhi f, _ => exact readResult f.rd fun m => m.cpu.regs.hi
    | .register .mflo f, _ => exact readResult f.rd fun m => m.cpu.regs.lo
    | .register (.cop .geometry) f, ht =>
      have hf : isCommand f := by simpa [Timed] using ht
      refine .mono (waiting_bind (lenient_waiting.closed.requireCop _ m) fun _ t _ => ?_) fun _ _ h =>
        h.mono (Nat.zero_le _)
      rw [if_pos hf]
      exact commandGte f
  · have hwaiting : Moves (waiting γ δ) (Machine.execute i pc : Run γ δ _) m :=
      lenient_waiting.closed.execute i pc (fun h => absurd h ht)
        (fun f hi hf => absurd (by rw [hi]; exact .inr (.inr ⟨rfl, hf⟩)) ht) m
    exact (of_waiting hwaiting).mono fun _ _ h => h.took.mono (Nat.zero_le _)

theorem executeWord (word pc : UInt32) : Clocked (Clock.Took 0 m.results.stall.toNat)
    (executeWord (γ := γ) (δ := δ) word pc : Run γ δ _) m := by
  simp only [Machine.executeWord]
  split
  · exact .exec_lift_bind fun _ => execute _ pc
  · exact .of_eq (Clock.Took.refl _) rfl

/-- Nothing waits once an instruction has been executed. -/
theorem complete (word pc : UInt32) :
    Clocked (Clock.Took 0 m.results.stall.toNat) (complete (γ := γ) (δ := δ) word pc) m := by
  refine .bind (S := Clock.Passed 0 0) (fun _ _ _ h => h.then_passed) (executeWord word pc)
    fun outcome t _ => .still_bind rfl fun _ t _ => .get_bind (.lift_bind fun _ => ?_)
  refine .bind (fun _ _ _ h k => h.trans k) (R := Clock.Passed 0 0) (S := Clock.Passed 0 0) (fun _ => ?_)
    fun _ t _ => ?_
  · exact ⟨Nat.le_refl _, Nat.le_refl _, rfl⟩
  · cases outcome <;> exact .of_eq (Clock.Passed.refl 0) rfl

theorem step :
    Clocked (Clock.Took 1 (1 + (4 + m.results.stall.toNat))) (step (γ := γ) (δ := δ)) m := by
  refine .still_bind rfl fun _ t ht => .still_bind rfl fun pc u hu =>
    .bind (fun _ _ _ h k => h.then_took k) (spend instructionCost) fun _ v hv =>
      .get_bind (R := Clock.Took 0 (4 + m.results.stall.toNat)) ?_
  have hresults : v.results = m.results := by cases ht; cases hu; cases hv; rfl
  dsimp only
  split
  · exact .still_bind rfl fun _ _ _ => .of_eq (Clock.Took.refl _) rfl
  · refine .bind (S := Clock.Took 0 m.results.stall.toNat) (fun _ _ _ h k => h.then_took k) (obtain pc)
      fun r w hw => ?_
    rw [← hresults, ← Ignores.results_of_value (fun _ => .obtain _) hw]
    cases r with
    | error e => exact .of_eq (Clock.Took.refl _) rfl
    | ok word => exact complete word pc

/-- The devices take no time on the clock. -/
theorem next : Clocked (Clock.Took 1 (1 + (4 + m.results.stall.toNat))) (next (γ := γ) (δ := δ)) m :=
  .get_bind (.then_still step fun _ _ => rfl)

end Clocked

def InTime (m : Machine γ δ) : Prop := Fault.counter ∉ (next m).record.faults

/-- A step tells how many cycles went by, which is never none. -/
theorem InTime.elapsed (h : m.InTime) : 0 < (next m).value.1.toNat ∧
    (next m).value.2.cpu.clock.cycles.toNat = m.cpu.clock.cycles.toNat + (next m).value.1.toNat := by
  have hleast := (Clocked.next h).least
  have helapsed : (next m).value.1.toNat =
      (next m).value.2.cpu.clock.cycles.toNat - m.cpu.clock.cycles.toNat :=
    UInt64.toNat_sub_of_le _ _ (UInt64.le_iff_toNat_le.mpr (Nat.le_of_add_right_le hleast))
  omega

end Machine
end R3000
