import R3000.Proofs.MachineSafety

/-! # Room on the clock

Every computation of a machine in good order adds a bounded number of cycles to the later of the
current cycle and the one at which the geometry engine is free. As long as these and the count of
retired instructions have room, no counter overruns and no fault is left; the cycles never go back. -/
namespace R3000

def Clock.horizon (c : Clock) : Nat := max c.cycles.toNat c.gteReadyAt.toNat

theorem count_of_lt (n amount : UInt64) (h : n.toNat + amount.toNat < 0x10000000000000000) :
    count n amount = { value := n + amount } ∧ (n + amount).toNat = n.toNat + amount.toNat := by
  constructor
  · simp only [count]
    rw [show decide (n.toNat + amount.toNat < 0x10000000000000000) = true from decide_eq_true h]
    rfl
  · rw [UInt64.toNat_add, Nat.mod_eq_of_lt h]

namespace Machine
variable {γ δ α β : Type} {m t u : Machine γ δ} {r q : Record}

/-- The clock has room for this many cycles, and for this many instructions to retire. -/
structure Room (cycles retired : Nat) (m : Machine γ δ) : Prop where
  cycles : m.cpu.clock.horizon + cycles < 0x10000000000000000
  retired : m.cpu.clock.retired.toNat + retired < 0x10000000000000000

structure Spent (cycles retired : Nat) (m : Machine γ δ) (r : Record) (t : Machine γ δ) : Prop where
  wellFormed : t.WellFormed
  faults : r.faults = []
  horizon : t.cpu.clock.horizon ≤ m.cpu.clock.horizon + cycles
  retired : t.cpu.clock.retired.toNat ≤ m.cpu.clock.retired.toNat + retired
  forward : m.cpu.clock.cycles.toNat ≤ t.cpu.clock.cycles.toNat

/-- From a machine in good order with room for it, at most this much of the clock is used. -/
def Spends (cycles retired : Nat) (m : Machine γ δ) (r : Record) (t : Machine γ δ) : Prop :=
  m.WellFormed → m.Room cycles retired → Spent cycles retired m r t

theorem Spends.trans {j k i l : Nat} (h₁ : Spends j i m r t) (h₂ : Spends k l t q u) :
    Spends (j + k) (i + l) m (r ++ q) u := by
  intro hm ⟨hc, hr⟩
  have s₁ := h₁ hm ⟨by omega, by omega⟩
  have hh := s₁.horizon
  have hi := s₁.retired
  have s₂ := h₂ s₁.wellFormed ⟨by omega, by omega⟩
  have hh' := s₂.horizon
  have hi' := s₂.retired
  refine ⟨s₂.wellFormed, ?_, by omega, by omega, Nat.le_trans s₁.forward s₂.forward⟩
  rw [Record.faults_append, s₁.faults, s₂.faults]
  rfl

theorem Spends.mono {j k i l : Nat} (h : Spends j i m r t) (hk : j ≤ k) (hl : i ≤ l) :
    Spends k l m r t := by
  intro hm ⟨hc, hr⟩
  have s := h hm ⟨by omega, by omega⟩
  have hh := s.horizon
  have hi := s.retired
  exact ⟨s.wellFormed, s.faults, by omega, by omega, s.forward⟩

def idle (γ δ : Type) : Motion (Machine γ δ) where
  holds := Spends 0 0
  still _ _ hm _ := ⟨hm, rfl, Nat.le_refl _, Nat.le_refl _, Nat.le_refl _⟩
  trans := Spends.trans

def Takes (cycles retired : Nat) (x : Run γ δ α) (m : Machine γ δ) : Prop :=
  Spends cycles retired m (x m).record (x m).value.2

namespace Takes
variable {j k i l : Nat}

theorem bind {x : Run γ δ α} {f : α → Run γ δ β} (hx : Takes j i x m)
    (hf : ∀ a t, (x m).value = (a, t) → Takes k l (f a) t) : Takes (j + k) (i + l) (x >>= f) m :=
  hx.trans (hf _ _ rfl)

/-- Time goes by first, and instructions retire later. -/
theorem bind_cycles {x : Run γ δ α} {f : α → Run γ δ β} (hx : Takes j 0 x m)
    (hf : ∀ a t, (x m).value = (a, t) → Takes k l (f a) t) : Takes (j + k) l (x >>= f) m :=
  Spends.mono (bind hx hf) (Nat.le_refl _) (Nat.le_of_eq (Nat.zero_add l))

/-- All the time goes by first. -/
theorem bind_retired {x : Run γ δ α} {f : α → Run γ δ β} (hx : Takes j 0 x m)
    (hf : ∀ a t, (x m).value = (a, t) → Takes 0 l (f a) t) : Takes j l (x >>= f) m :=
  bind_cycles hx hf

theorem idle_bind {x : Run γ δ α} {f : α → Run γ δ β} (hx : Moves (idle γ δ) x m)
    (hf : ∀ a t, (x m).value = (a, t) → Takes k l (f a) t) : Takes k l (x >>= f) m :=
  Spends.mono (bind hx hf) (Nat.le_of_eq (Nat.zero_add k)) (Nat.le_of_eq (Nat.zero_add l))

theorem get_bind {f : Machine γ δ → Run γ δ β} (hf : Takes k l (f m) m) :
    Takes k l (get >>= f) m := hf

theorem lift_bind {x : Reported α} {f : α → Run γ δ β} (hx : x.Quiet)
    (hf : Takes k l (f x.value) m) : Takes k l (liftM x >>= f) m :=
  idle_bind (.lift ((idle γ δ).quiet hx m)) fun a t h => by cases h; exact hf

theorem exec_bind {x : Exec γ δ α} {f : α → Exec γ δ β} (hx : Takes j i (x : Run γ δ _) m)
    (hf : ∀ a t, (x m).value = (.ok a, t) → Takes k l (f a : Run γ δ _) t) :
    Takes (j + k) (i + l) (x >>= f : Exec γ δ β) m := by
  refine bind (f := ExceptT.bindCont f) hx ?_
  rintro (e | a) t h
  · exact ((idle γ δ).still t []).mono (Nat.zero_le k) (Nat.zero_le l)
  · exact hf a t h

theorem exec_idle_bind {x : Exec γ δ α} {f : α → Exec γ δ β} (hx : Moves (idle γ δ) x m)
    (hf : ∀ a t, (x m).value = (.ok a, t) → Takes k l (f a : Run γ δ _) t) :
    Takes k l (x >>= f : Exec γ δ β) m :=
  Spends.mono (exec_bind hx hf) (Nat.le_of_eq (Nat.zero_add k)) (Nat.le_of_eq (Nat.zero_add l))

theorem exec_lift_bind {x : Reported α} {f : α → Exec γ δ β} (hx : x.Quiet)
    (hf : Takes k l (f x.value : Run γ δ _) m) : Takes k l (liftM x >>= f : Exec γ δ β) m :=
  exec_idle_bind (.exec_lift ((idle γ δ).quiet hx m)) fun a t h => by cases h; exact hf

theorem exec_get_bind {f : Machine γ δ → Exec γ δ β} (hf : Takes k l (f m : Run γ δ _) m) :
    Takes k l (get >>= f : Exec γ δ β) m :=
  exec_idle_bind ((idle γ δ).still m []) fun a t h => by cases h; exact hf

theorem of_idle {x : Run γ δ α} (hx : Moves (idle γ δ) x m) : Takes k l x m :=
  Spends.mono hx (Nat.zero_le k) (Nat.zero_le l)

theorem mono {x : Run γ δ α} (h : Takes j i x m) (hk : j ≤ k) (hl : i ≤ l) : Takes k l x m :=
  Spends.mono h hk hl

theorem plain {x : Run γ δ α} (h : Takes j i x m) : Takes j i (R3000.plain x) m :=
  h.trans ((idle γ δ).still _ [])

end Takes

theorem spend_takes (cycles : UInt64) : Takes cycles.toNat 0 (spend cycles) m := by
  intro hm hr
  have hle : m.cpu.clock.cycles.toNat ≤ m.cpu.clock.horizon := Nat.le_max_left _ _
  have hroom := hr.cycles
  obtain ⟨hcount, hsum⟩ := count_of_lt m.cpu.clock.cycles cycles (by omega)
  refine ⟨⟨hm.slots, hm.bus⟩, ?_, ?_, Nat.le_refl _, ?_⟩
  · show [] ++ ((count m.cpu.clock.cycles cycles).record.faults ++ [] ++ []) = []
    rw [hcount]
    rfl
  · show max (count m.cpu.clock.cycles cycles).value.toNat m.cpu.clock.gteReadyAt.toNat ≤ _
    rw [hcount, hsum]
    have : m.cpu.clock.gteReadyAt.toNat ≤ m.cpu.clock.horizon := Nat.le_max_right _ _
    omega
  · show _ ≤ (count m.cpu.clock.cycles cycles).value.toNat
    rw [hcount, hsum]
    exact Nat.le_add_right _ _

theorem awaitGte_idle : Moves (idle γ δ) awaitGte m := by
  refine .get_bind ?_
  dsimp only
  split
  · rename_i hlt
    have hlt := UInt64.lt_iff_toNat_lt.mp hlt
    refine .quiet_bind (.note _) fun hm _ => ⟨⟨hm.slots, hm.bus⟩, rfl, ?_, Nat.le_refl _, ?_⟩
    · show max m.cpu.clock.gteReadyAt.toNat m.cpu.clock.gteReadyAt.toNat ≤ _
      rw [Nat.max_self]
      exact Nat.le_max_right _ _
    · exact Nat.le_of_lt hlt
  · exact .pure _

theorem lenient_idle : Lenient (idle γ δ) where
  cpu m c hc hs hm _ := by
    refine ⟨⟨hs hm.slots, hm.bus⟩, rfl, ?_, ?_, ?_⟩ <;> dsimp only <;> rw [hc] <;>
      exact Nat.le_refl _
  bus m r b hb hm _ := by
    obtain ⟨hb, hr⟩ := hb hm.bus
    exact ⟨⟨hm.slots, hb⟩, List.eq_nil_iff_forall_not_mem.mpr hr, Nat.le_refl _, Nat.le_refl _,
      Nat.le_refl _⟩
  gte _ _ hm _ := ⟨⟨hm.slots, hm.bus⟩, rfl, Nat.le_refl _, Nat.le_refl _, Nat.le_refl _⟩
  await _ := awaitGte_idle

theorem setReadyAt_takes (s : γ) (latency : UInt32) : Takes 0x100000000 0
    (do
      modify fun m => { m with gteState := s }
      let clock := (← get).cpu.clock
      let gteReadyAt ← count clock.cycles latency.toUInt64
      plain (setClock { clock with gteReadyAt }) : Exec γ δ Unit) m := by
  refine .exec_idle_bind (lenient_idle.gte m s) fun _ t _ => .exec_get_bind fun hm hr => ?_
  have hle : t.cpu.clock.cycles.toNat ≤ t.cpu.clock.horizon := Nat.le_max_left _ _
  have hroom := hr.cycles
  have hl : latency.toUInt64.toNat = latency.toNat := UInt32.toNat_toUInt64 latency
  have hlt := latency.toNat_lt
  obtain ⟨hcount, hsum⟩ := count_of_lt t.cpu.clock.cycles latency.toUInt64 (by omega)
  refine Takes.exec_lift_bind (by rw [hcount]; exact .pure _) (.plain fun hm _ => ?_) hm hr
  refine ⟨⟨hm.slots, hm.bus⟩, rfl, ?_, Nat.le_refl _, Nat.le_refl _⟩
  show max t.cpu.clock.cycles.toNat (count t.cpu.clock.cycles latency.toUInt64).value.toNat ≤ _
  rw [hcount, hsum]
  omega

/-- The engine is free again as late as its answer says. -/
theorem commandGte_takes (f : Register) :
    Takes 0x100000000 0 (commandGte (γ := γ) (δ := δ) f : Run γ δ _) m := by
  refine .exec_idle_bind (.plain awaitGte_idle) fun _ t _ => .exec_idle_bind
    (.exec_lift fun hm _ => ⟨hm, rfl, Nat.le_refl _, Nat.le_refl _, Nat.le_refl _⟩)
    fun _ t _ => .exec_get_bind ?_
  dsimp only
  split
  · exact .exec_lift_bind (.note _) (setReadyAt_takes _ _)
  · exact setReadyAt_takes _ _

/-- A read of HI or LO waits at most as long as a stall can be. -/
theorem readResult_takes (rd : Reg) (read : Machine γ δ → UInt32) : Takes 0x100000000 0
    (do
      let stall ← resolveMulDiv
      plain (spend stall.toUInt64)
      setGpr rd (read (← get)) : Exec γ δ Unit) m := by
  refine .exec_idle_bind (lenient_idle.closed.resolve m) fun stall _ _ => ?_
  have hlt := stall.toNat_lt
  have hl : stall.toUInt64.toNat = stall.toNat := UInt32.toNat_toUInt64 stall
  refine .mono (.exec_bind (.plain (spend_takes stall.toUInt64)) fun _ t _ =>
    .exec_get_bind (lenient_idle.closed.setGpr rd _ t)) (by omega) (Nat.le_refl _)

theorem execute_takes (i : Instruction) (pc : UInt32) :
    Takes 0x100000000 0 (execute (γ := γ) (δ := δ) i pc : Run γ δ _) m := by
  by_cases ht : Timed i
  · match i, ht with
    | .register .mfhi f, _ => exact readResult_takes f.rd fun m => m.cpu.regs.hi
    | .register .mflo f, _ => exact readResult_takes f.rd fun m => m.cpu.regs.lo
    | .register (.cop .geometry) f, ht =>
      have hf : isCommand f := by simpa [Timed] using ht
      refine .exec_idle_bind (lenient_idle.closed.requireCop _ m) fun _ t _ => ?_
      rw [if_pos hf]
      exact commandGte_takes f
  · refine .of_idle (lenient_idle.closed.execute i pc (fun h => absurd h ht) (fun f hi hf => ?_) m)
    exact absurd (by rw [hi]; exact .inr (.inr ⟨rfl, hf⟩)) ht

theorem executeWord_takes (word pc : UInt32) :
    Takes 0x100000000 0 (executeWord (γ := γ) (δ := δ) word pc : Run γ δ _) m := by
  simp only [executeWord]
  split
  · exact .exec_lift_bind (.note _) (execute_takes _ pc)
  · exact .of_idle (.exec_lift ((idle γ δ).still m _))

theorem fetch_takes (pc : UInt32) : Takes 4 0 (fetch (γ := γ) (δ := δ) pc : Run γ δ _) m := by
  have hc := lenient_idle (γ := γ) (δ := δ).closed
  refine .exec_get_bind ?_
  dsimp only
  split
  · exact .exec_lift_bind (.note _)
      (.exec_idle_bind ((idle γ δ).still m []) fun _ _ h => nomatch h)
  have hpc := aligned_of_fetchable ‹_›
  split
  · refine .exec_idle_bind (hc.fetchLine _ _ m) fun r t _ =>
      .exec_idle_bind (hc.writeCaches _ t) fun _ t _ =>
        .exec_idle_bind (hc.answer .fetch pc r.1 t) fun f t _ => ?_
    split
    · exact .exec_bind (k := 0) (l := 0) (.plain (spend_takes refillCost)) fun _ _ _ => .of_idle (.pure _)
    · exact .of_idle (.pure _)
  · exact .exec_bind (k := 0) (l := 0) (.plain (spend_takes uncachedFetchCost)) fun _ t _ =>
      .of_idle (hc.busReadAnswer .fetch pc (translate_aligned hpc) t)

theorem obtain_takes (pc : UInt32) : Takes 4 0 (obtain (γ := γ) (δ := δ) pc : Run γ δ _) m :=
  .exec_idle_bind (lenient_idle.closed.checkExecutionBreakpoint pc m) fun _ _ _ => fetch_takes pc

theorem retire_idle : Moves (idle γ δ) retire m := fun hm => lenient_idle.retire hm.slots hm

theorem abort_idle (e : Exception) (pc : UInt32) : Moves (idle γ δ) (abort e pc) m :=
  .bind retire_idle fun _ _ _ => lenient_idle.enterException e pc

/-- The count of retired instructions goes up by one before what comes next. -/
theorem countRetired_takes {x : Run γ δ β} (hx : ∀ t, Moves (idle γ δ) x t) :
    Takes 0 1
      (do
        let clock := (← get).cpu.clock
        setClock { clock with retired := ← count clock.retired 1 }
        x) m := by
  refine .get_bind fun hm hr => ?_
  obtain ⟨hcount, hsum⟩ := count_of_lt m.cpu.clock.retired 1 hr.retired
  have hset : Takes 0 1 (setClock { m.cpu.clock with retired := m.cpu.clock.retired + 1 }) m :=
    fun hm _ => ⟨⟨hm.slots, hm.bus⟩, rfl, Nat.le_refl _, Nat.le_of_eq hsum, Nat.le_refl _⟩
  refine Takes.lift_bind (by rw [hcount]; exact .pure _) ?_ hm hr
  rw [hcount]
  exact .bind (k := 0) (l := 0) hset fun _ t _ => hx t

theorem complete_takes (word pc : UInt32) :
    Takes 0x100000000 1 (complete (γ := γ) (δ := δ) word pc) m := by
  refine .bind_retired (executeWord_takes word pc) fun outcome t _ =>
    .idle_bind retire_idle fun _ t _ => countRetired_takes fun t => ?_
  cases outcome with
  | ok _ => exact .pure _
  | error e => exact lenient_idle.enterException e pc

/-- A step takes a cycle, a fetch and an instruction. -/
theorem step_takes : Takes (1 + (4 + 0x100000000)) 1 (step (γ := γ) (δ := δ)) m := by
  refine .idle_bind lenient_idle.sampleLine fun _ _ _ =>
    .idle_bind lenient_idle.advance fun pc _ _ =>
      .bind_cycles (spend_takes instructionCost) fun _ _ _ => .get_bind ?_
  dsimp only
  split
  · exact .lift_bind (.note _) (.of_idle (abort_idle _ pc))
  · refine .bind_cycles (obtain_takes pc) fun r t _ => ?_
    cases r with
    | error e => exact .of_idle (abort_idle e pc)
    | ok word => exact complete_takes word pc

/-- The devices take no time on the clock. -/
theorem next_takes : Takes (1 + (4 + 0x100000000)) 1 (next (γ := γ) (δ := δ)) m := by
  refine .get_bind (.mono (.bind (k := 0) (l := 0) step_takes fun _ _ _ => .get_bind ?_)
    (Nat.le_refl _) (Nat.le_refl _))
  exact .idle_bind (lenient_idle.onBus (Bus.update_safe _)) fun _ _ _ => .of_idle (.pure _)

end Machine
end R3000
