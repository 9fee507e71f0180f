import R3000.Proofs.EagerMachine

/-! # How long reads of HI and LO wait

The first access after an issue lands its result. If it is a read, it waits for as much of the
operation's time as the instructions retired since have not covered; no other access waits. -/
namespace R3000.Machine
variable {γ δ : Type} {m : Machine γ δ} {s : Nat → Machine γ δ} {j k : Nat}

def completes (m : Machine γ δ) (p : Instruction → Bool) : Bool := m.completed?.any p

/-- The instructions that the steps from `j` on have executed before step `k`. -/
def retiredBetween (s : Nat → Machine γ δ) (j k : Nat) : Nat :=
  (List.range' j (k - j)).countP fun l => (s l).executes

/-- How long the accesses of a run wait. -/
structure Interlocked (s : Nat → Machine γ δ) : Prop where
  /-- The first access after an issue, if it is a read, waits for the rest of the operation's time. -/
  first : ∀ j k op f, j < k → (s j).completed? = some (.register (.muldiv op) f) →
    (∀ l, j < l → l < k → ¬(s l).completes (·.usesUnit)) → (s k).completes (·.reads) →
    (s k).executionCycles.toNat = (op.latency ((s j).cpu.regs.gpr f.rs)).toNat -
      ((s k).cpu.clock.retired.toNat - (s j).cpu.clock.retired.toNat)
  /-- Unless the count overruns, it shows the instructions retired since. -/
  retired : ∀ j k, j ≤ k →
    (s j).cpu.clock.retired.toNat + retiredBetween s j k < 0x10000000000000000 →
    (s k).cpu.clock.retired.toNat = (s j).cpu.clock.retired.toNat + retiredBetween s j k
  /-- A later access does not wait until the next issue. -/
  later : ∀ j k, j < k → (s j).completes (·.touches) →
    (∀ l, j < l → l < k → ¬(s l).completes (·.issues)) → (s k).completes (·.touches) →
    (s k).executionCycles = 0
  /-- Before the first issue no access waits. -/
  before : ∀ k, (∀ l < k, ¬(s l).completes (·.issues)) → (s k).completes (·.touches) →
    (s k).executionCycles = 0
  /-- Neither an issue nor a write of HI or LO ever waits. -/
  free : ∀ k, (s k).completes (·.usesUnit) → ¬(s k).completes (·.reads) →
    (s k).executionCycles = 0

theorem completes_iff {p : Instruction → Bool} :
    m.completes p ↔ ∃ i, m.completed? = some i ∧ p i := by
  unfold completes
  cases m.completed? <;> simp

theorem retiredBetween_succ (hjk : j ≤ k) : retiredBetween s j (k + 1) =
    retiredBetween s j k + if (s k).executes then 1 else 0 := by
  have hlength : k + 1 - j = k - j + 1 := by omega
  have hlast : j + (k - j) = k := by omega
  rw [retiredBetween, hlength, List.range'_1_concat, List.countP_append, hlast,
    List.countP_singleton]
  rfl

namespace Successive
variable (hs : Successive s)
include hs

/-- Where no instruction uses the unit, it stays as it is. -/
theorem muldiv_kept (hjk : j ≤ k) (h : ∀ l, j ≤ l → l < k → ¬(s l).completes (·.usesUnit)) :
    (s k).cpu.muldiv = (s j).cpu.muldiv := by
  induction hjk with
  | refl => rfl
  | @step k hjk ih =>
    refine Eq.trans ?_ (ih fun l hl hk => h l hl (Nat.lt_succ_of_lt hk))
    have hunused := h k hjk (Nat.lt_succ_self k)
    refine (congrArg Results.muldiv (hs.results k)).trans ?_
    rw [completes] at hunused
    cases hc : (s k).completed? with
    | none => rfl
    | some i =>
      rw [hc] at hunused
      exact congrArg Results.muldiv (i.operate_unused (by simpa using hunused) _ _)

/-- Without an issue nothing comes to be pending. -/
theorem idle_kept (hjk : j ≤ k) (hj : (s j).cpu.muldiv.pending = none)
    (h : ∀ l, j ≤ l → l < k → ¬(s l).completes (·.issues)) : (s k).cpu.muldiv.pending = none := by
  induction hjk with
  | refl => exact hj
  | @step k hjk ih =>
    have hidle := ih fun l hl hk => h l hl (Nat.lt_succ_of_lt hk)
    have hissue := h k hjk (Nat.lt_succ_self k)
    refine (congrArg (·.muldiv.pending) (hs.results k)).trans ?_
    rw [completes] at hissue
    cases hc : (s k).completed? with
    | none => exact hidle
    | some i =>
      rw [hc] at hissue
      exact i.operate_idle (by simpa using hissue) _ hidle

theorem retired_count (hjk : j ≤ k)
    (h : (s j).cpu.clock.retired.toNat + retiredBetween s j k < 0x10000000000000000) :
    (s k).cpu.clock.retired.toNat = (s j).cpu.clock.retired.toNat + retiredBetween s j k := by
  induction hjk with
  | refl => simp [retiredBetween]
  | @step k hjk ih =>
    have hstep : (s (k + 1)).cpu.clock.retired =
        (s k).cpu.clock.retired + if (s k).executes then 1 else 0 :=
      congrArg Results.retired (hs.results k)
    rw [Nat.succ_eq_add_one, retiredBetween_succ hjk] at h ⊢
    rw [hstep, UInt64.toNat_add, ih (by omega), Nat.add_assoc]
    cases he : (s k).executes <;> rw [he] at h <;> exact Nat.mod_eq_of_lt h

/-- The time of the operation is counted from its issue on, unless another one or an access comes. -/
theorem stall_first (hjk : j < k) {op : MulDivOp} {f : Register}
    (hj : (s j).completed? = some (.register (.muldiv op) f))
    (h : ∀ l, j < l → l < k → ¬(s l).completes (·.usesUnit)) :
    (s k).results.stall.toNat = (op.latency ((s j).cpu.regs.gpr f.rs)).toNat -
      ((s k).cpu.clock.retired.toNat - (s j).cpu.clock.retired.toNat) := by
  have hissue : (s (j + 1)).cpu.muldiv = .issue op ((s j).cpu.regs.gpr f.rs)
      ((s j).cpu.regs.gpr f.rt) (s j).cpu.clock.retired := by
    refine (congrArg Results.muldiv (hs.results j)).trans ?_
    rw [hj]
    rfl
  have hkept : (s k).results.muldiv = (s (j + 1)).cpu.muldiv := hs.muldiv_kept hjk h
  rw [Results.stall, hkept, hissue]
  simp only [MulDivUnit.issue, Option.elim_some, MulDivPending.stall]
  exact UInt32.toNat_ofNat_of_lt (Nat.lt_of_le_of_lt (Nat.sub_le _ _) (UInt32.toNat_lt_size _))

/-- An access leaves nothing pending. -/
theorem idle_touched (hj : (s j).completes (·.touches)) :
    (s (j + 1)).cpu.muldiv.pending = none := by
  obtain ⟨i, hi, htouches⟩ := completes_iff.mp hj
  refine (congrArg (·.muldiv.pending) (hs.results j)).trans ?_
  rw [hi]
  exact i.operate_touched htouches _ _

end Successive

theorem executionCycles_reads {i : Instruction} (h : m.completed? = some i) (hi : i.reads) :
    m.executionCycles = m.results.stall.toUInt64 := by
  rw [executionCycles_unit h (i.usesUnit_of_touches (i.touches_of_reads hi)), Instruction.interlock,
    if_pos hi]

theorem executionCycles_free {i : Instruction} (h : m.completed? = some i) (hi : i.usesUnit)
    (hreads : ¬i.reads) : m.executionCycles = 0 := by
  rw [executionCycles_unit h hi, Instruction.interlock, if_neg hreads]
  rfl

/-- With nothing pending no access waits. -/
theorem executionCycles_idle (h : m.completes (·.touches)) (hidle : m.cpu.muldiv.pending = none) :
    m.executionCycles = 0 := by
  obtain ⟨i, hi, htouches⟩ := completes_iff.mp h
  by_cases hreads : i.reads
  · have hstall : m.results.stall = 0 := by
      rw [Results.stall, show m.results.muldiv.pending = none from hidle]
      rfl
    rw [executionCycles_reads hi hreads, hstall]
    rfl
  · exact executionCycles_free hi (i.usesUnit_of_touches htouches) hreads

theorem Successive.interlocked (hs : Successive s) (h : (s 0).cpu.muldiv.pending = none) :
    Interlocked s where
  first j k op f hjk hj hbetween hk := by
    obtain ⟨i, hi, hreads⟩ := completes_iff.mp hk
    rw [executionCycles_reads hi hreads, UInt32.toNat_toUInt64]
    exact hs.stall_first hjk hj hbetween
  retired j k hjk hroom := hs.retired_count hjk hroom
  later j k hjk hj hbetween hk :=
    executionCycles_idle hk (hs.idle_kept hjk (hs.idle_touched hj) hbetween)
  before k hbefore hk :=
    executionCycles_idle hk (hs.idle_kept (Nat.zero_le k) h fun l _ hl => hbefore l hl)
  free k hk hreads := by
    obtain ⟨i, hi, huses⟩ := completes_iff.mp hk
    exact executionCycles_free hi huses fun h => hreads (completes_iff.mpr ⟨i, hi, h⟩)

/-- The unit is as good as one whose results do not wait. A run that starts with nothing pending has a
twin on such a machine, which stores the same values at the same reads, and a read waits for no more
than what is left of the operation's time. -/
theorem Successive.asIfEager (hs : Successive s) (h : (s 0).cpu.muldiv.pending = none) :
    (∃ e, Twins s e) ∧ Interlocked s :=
  ⟨⟨_, hs.twins h⟩, hs.interlocked h⟩

/-- The product of -3 and 7 is read as soon as it is issued, HI first. -/
def multiplying : Machine Gte.Registers Unit :=
  booting [0x2408fffd, 0x24090007, 0x01090018, 0x00005010, 0x00005812] (by decide)

set_option maxRecDepth 10000 in
theorem asIfEager_multiplying : multiplying.cpu.muldiv.pending = none ∧
    (∃ e, Twins multiplying.after e ∧ (multiplying.after 3).effect = .write 10 (e 3).cpu.regs.hi) ∧
    (multiplying.after 3).effect = .write 10 0xffffffff ∧
    (multiplying.after 3).executionCycles.toNat = 5 ∧ (multiplying.after 4).executionCycles = 0 := by
  obtain ⟨⟨e, he⟩, hwaits⟩ := (successive_after multiplying).asIfEager rfl
  have hhi := he.hi 3 ⟨0, 0, 10, 0, 16⟩ (by decide +kernel)
  refine ⟨rfl, ⟨e, he, hhi⟩, ?_, ?_, ?_⟩
  · decide +kernel
  · refine (hwaits.first 2 3 .mult ⟨8, 9, 0, 0, 24⟩ (by decide) (by decide +kernel)
      (fun l hl hl' => absurd hl (by omega)) (by decide +kernel)).trans ?_
    decide +kernel
  · exact hwaits.later 3 4 (by decide) (by decide +kernel) (fun l hl hl' => absurd hl (by omega))
      (by decide +kernel)

end R3000.Machine
