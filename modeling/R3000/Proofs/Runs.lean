import R3000.Proofs.StepTime

/-! # Runs can be cut anywhere

As long as no counter overruns, a run takes as few steps as its budget of cycles needs. So one run after
another does what a single run does whose budget is what went by in the first one and that of the second. -/
namespace R3000

/-- What comes after a computation depends on its value alone. -/
theorem Reported.bind_congr_value {α β : Type} {x : Reported α} {f g : α → Reported β}
    (h : f x.value = g x.value) : x >>= f = x >>= g := by
  refine Reported.eq_of ?_ ?_
  · rw [value_bind, value_bind, h]
  · rw [record_bind, record_bind, h]

namespace Machine
variable {γ δ : Type} {m : Machine γ δ}

/-- As many steps. Gives the cycles that went by. -/
def stepped : Nat → Run γ δ Nat
  | 0 => return 0
  | n + 1 => do
    let elapsed ← next
    return elapsed.toNat + (← stepped n)

def elapsed (m : Machine γ δ) (n : Nat) : Nat := (stepped n m).value.1

theorem stepped_add (n k : Nat) : (stepped (n + k) : Run γ δ Nat) = do
    let e ← stepped n
    let f ← stepped k
    return e + f := by
  induction n with
  | zero => simp only [Nat.zero_add, stepped, pure_bind, bind_pure]
  | succ n ih =>
    rw [Nat.succ_add, stepped, ih]
    simp only [stepped, bind_assoc, pure_bind, Nat.add_assoc]

theorem after_add (m : Machine γ δ) (n k : Nat) : m.after (n + k) = (m.after n).after k := by
  induction k with
  | zero => rfl
  | succ k ih => exact congrArg (fun t => (next t).value.2) ih

theorem after_succ (m : Machine γ δ) (n : Nat) : m.after (n + 1) = (next m).value.2.after n := by
  rw [Nat.add_comm, after_add]
  rfl

theorem stepped_after (n : Nat) : (stepped n m).value.2 = m.after n := by
  induction n generalizing m with
  | zero => rfl
  | succ n ih => rw [after_succ, ← ih]; rfl

theorem elapsed_succ (n : Nat) :
    m.elapsed (n + 1) = (next m).value.1.toNat + (next m).value.2.elapsed n := rfl

theorem elapsed_add (n k : Nat) : m.elapsed (n + k) = m.elapsed n + (m.after n).elapsed k := by
  rw [elapsed, stepped_add, ← stepped_after]
  rfl

/-- So many steps, and no fewer, take as many cycles. -/
structure Least (m : Machine γ δ) (cycles n : Nat) : Prop where
  below : ∀ k < n, m.elapsed k < cycles
  reached : cycles ≤ m.elapsed n

namespace Least
variable {a b n k : Nat}

theorem zero (h : b = 0) : m.Least b 0 := ⟨nofun, Nat.le_of_eq h⟩

theorem succ (hb : 0 < b) (h : (next m).value.2.Least (b - (next m).value.1.toNat) n) :
    m.Least b (n + 1) := by
  refine ⟨fun k hk => ?_, ?_⟩
  · cases k with
    | zero => exact hb
    | succ k =>
      have := h.below k (Nat.lt_of_succ_lt_succ hk)
      rw [elapsed_succ]
      omega
  · have := h.reached
    rw [elapsed_succ]
    omega

/-- The steps after the first one. -/
theorem tail (h : m.Least b (n + 1)) :
    (next m).value.2.Least (b - (next m).value.1.toNat) n := by
  refine ⟨fun k hk => ?_, ?_⟩
  · have := h.below (k + 1) (Nat.succ_lt_succ hk)
    rw [elapsed_succ] at this
    omega
  · have := h.reached
    rw [elapsed_succ] at this
    omega

theorem add (h : m.Least a n) (hk : (m.after n).Least b k) : m.Least (m.elapsed n + b) (n + k) := by
  refine ⟨fun j hj => ?_, ?_⟩
  · by_cases hn : j < n
    · exact Nat.lt_of_lt_of_le (h.below j hn) (Nat.le_trans h.reached (Nat.le_add_right _ _))
    · obtain ⟨i, rfl⟩ := Nat.exists_eq_add_of_le (Nat.not_lt.mp hn)
      rw [elapsed_add]
      exact Nat.add_lt_add_left (hk.below i (by omega)) _
  · rw [elapsed_add]
    exact Nat.add_le_add_left hk.reached _

end Least

section Loop
variable {fuel : Nat} {budget elapsed : UInt64}

/-- The records of the steps so far come first. -/
theorem runFrom_seen (seen : List Record) : runFrom fuel budget elapsed m seen =
    ⟨(runFrom fuel budget elapsed m []).value,
      seen.foldl (fun r s => s ++ r) {} ++ (runFrom fuel budget elapsed m []).record⟩ := by
  have hgather : ∀ (seen : List Record) (r : Record),
      seen.foldl (fun r s => s ++ r) r = seen.foldl (fun r s => s ++ r) {} ++ r := by
    intro seen
    induction seen with
    | nil => exact fun _ => rfl
    | cons s seen ih =>
      intro r
      rw [List.foldl_cons, List.foldl_cons, ih, ih (s ++ {}), Record.append_empty, Record.append_assoc]
  induction fuel generalizing elapsed m seen with
  | zero => simp [runFrom]
  | succ fuel ih =>
    unfold runFrom
    split
    · dsimp only
      rw [ih (_ :: seen), ih [_], List.foldl_cons, hgather, Record.append_empty]
      simp [Record.append_assoc]
    · simp

theorem runFrom_below (h : elapsed < budget) : runFrom (fuel + 1) budget elapsed m [] =
    next m >>= fun p => runFrom fuel budget (elapsed + p.1) p.2 [] := by
  rw [runFrom, if_pos h]
  dsimp only
  rw [runFrom_seen]
  exact Reported.eq_of rfl (by simp)

theorem runFrom_reached (h : ¬elapsed < budget) :
    runFrom fuel budget elapsed m [] = pure (elapsed, m) := by
  cases fuel with
  | zero => rfl
  | succ fuel =>
    rw [runFrom, if_neg h]
    rfl

/-- Whatever becomes of the counters, the loop has taken some steps. -/
theorem exists_after_runFrom : ∃ n, (runFrom fuel budget elapsed m []).value.2 = m.after n := by
  induction fuel generalizing elapsed m with
  | zero => exact ⟨0, rfl⟩
  | succ fuel ih =>
    by_cases h : elapsed < budget
    · rw [runFrom_below h]
      obtain ⟨n, hn⟩ : ∃ n, _ = (next m).value.2.after n := ih
      exact ⟨n + 1, hn.trans (after_succ m n).symm⟩
    · rw [runFrom_reached h]
      exact ⟨0, rfl⟩

/-- More steps than the budget needs are not taken. -/
theorem runFrom_stepped {n : Nat} (hfuel : n ≤ fuel)
    (hn : m.Least (budget.toNat - elapsed.toNat) n)
    (hfits : elapsed.toNat + m.elapsed n < 0x10000000000000000) :
    runFrom fuel budget elapsed m [] =
      (fun p => (elapsed + UInt64.ofNat p.1, p.2)) <$> stepped n m := by
  induction n generalizing fuel elapsed m with
  | zero =>
    have hreached : budget.toNat - elapsed.toNat ≤ 0 := hn.reached
    have hge : ¬elapsed < budget := by
      rw [UInt64.lt_iff_toNat_lt]
      omega
    rw [runFrom_reached hge]
    show _ = pure (elapsed + 0, m)
    rw [UInt64.add_zero]
  | succ n ih =>
    obtain ⟨fuel, rfl⟩ := Nat.exists_eq_add_of_le' (Nat.lt_of_lt_of_le (Nat.succ_pos n) hfuel)
    have hpos : 0 < budget.toNat - elapsed.toNat := hn.below 0 (Nat.succ_pos n)
    have hlt : elapsed < budget := UInt64.lt_iff_toNat_lt.mpr (by omega)
    rw [elapsed_succ] at hfits
    have hsum : (elapsed + (next m).value.1).toNat = elapsed.toNat + (next m).value.1.toNat := by
      rw [UInt64.toNat_add]
      exact Nat.mod_eq_of_lt (by omega)
    have htail := hn.tail
    rw [Nat.sub_sub, ← hsum] at htail
    have hrest := ih (Nat.le_of_succ_le_succ hfuel) htail (by rw [hsum]; omega)
    rw [runFrom_below hlt]
    refine Reported.eq_of ?_ ?_
    · show (runFrom fuel budget (elapsed + (next m).value.1) (next m).value.2 []).value =
        (elapsed + UInt64.ofNat ((next m).value.1.toNat + (next m).value.2.elapsed n), _)
      rw [hrest, UInt64.ofNat_add, UInt64.ofNat_toNat, ← UInt64.add_assoc]
      rfl
    · rw [Reported.record_map, Reported.record_bind, hrest, Reported.record_map]
      exact congrArg _ (Record.append_empty _).symm

/-- The loop ends before the steps that it is allowed run out, as each of them takes time. -/
theorem exists_least (hcounter : Fault.counter ∉ (runFrom fuel budget elapsed m []).record.faults)
    (hfuel : budget.toNat ≤ elapsed.toNat + fuel)
    (hclock : elapsed.toNat ≤ m.cpu.clock.cycles.toNat) :
    ∃ n ≤ fuel, m.Least (budget.toNat - elapsed.toNat) n ∧
      (m.after n).cpu.clock.cycles.toNat = m.cpu.clock.cycles.toNat + m.elapsed n := by
  induction fuel generalizing elapsed m with
  | zero => exact ⟨0, Nat.le_refl _, .zero (Nat.sub_eq_zero_of_le hfuel), rfl⟩
  | succ fuel ih =>
    by_cases hlt : elapsed < budget
    · rw [runFrom_below hlt, Reported.record_bind, Record.faults_append, List.mem_append,
        not_or] at hcounter
      obtain ⟨hpos, hcycles⟩ := InTime.elapsed hcounter.1
      have hfits := (next m).value.2.cpu.clock.cycles.toNat_lt
      have hsum : (elapsed + (next m).value.1).toNat = elapsed.toNat + (next m).value.1.toNat := by
        rw [UInt64.toNat_add]
        exact Nat.mod_eq_of_lt (by omega)
      obtain ⟨n, hn, hleast, hafter⟩ := ih hcounter.2 (by omega) (by omega)
      rw [hsum, ← Nat.sub_sub] at hleast
      rw [UInt64.lt_iff_toNat_lt] at hlt
      refine ⟨n + 1, Nat.succ_le_succ hn, hleast.succ (by omega), ?_⟩
      rw [after_succ, hafter, hcycles, elapsed_succ, Nat.add_assoc]
    · rw [UInt64.lt_iff_toNat_lt] at hlt
      exact ⟨0, Nat.zero_le _, .zero (by omega), rfl⟩

end Loop

theorem exists_after_run (m : Machine γ δ) (budget : UInt64) :
    ∃ n, (run budget m).value.2 = m.after n :=
  exists_after_runFrom

def ran (m : Machine γ δ) (n : Nat) : Reported (UInt64 × Machine γ δ) :=
  (fun p => (UInt64.ofNat p.1, p.2)) <$> stepped n m

theorem ran_add (n k : Nat) : m.ran (n + k) = do
    let p ← m.ran n
    let q ← p.2.ran k
    return (p.1 + q.1, q.2) := by
  rw [ran, stepped_add]
  refine Reported.eq_of ?_ ?_
  · exact congrArg (·, _) (UInt64.ofNat_add _ _)
  · show (stepped n m).record ++ ((stepped k (stepped n m).value.2).record ++ {}) ++ {} = _
    simp [ran]

theorem ran_after (n : Nat) : (m.ran n).value.2 = m.after n := stepped_after n

theorem toNat_ran {n : Nat} (h : m.elapsed n < 0x10000000000000000) :
    (m.ran n).value.1.toNat = m.elapsed n :=
  UInt64.toNat_ofNat_of_lt h

/-- How a run goes that needs this many steps. -/
structure RunsIn (m : Machine γ δ) (budget : UInt64) (n : Nat) : Prop where
  bound : n ≤ budget.toNat
  least : m.Least budget.toNat n
  clock : (m.after n).cpu.clock.cycles.toNat = m.cpu.clock.cycles.toNat + m.elapsed n

namespace RunsIn
variable {budget : UInt64} {n : Nat}

theorem fits (h : m.RunsIn budget n) : m.elapsed n < 0x10000000000000000 := by
  have hclock := h.clock
  have hlt := (m.after n).cpu.clock.cycles.toNat_lt
  omega

theorem runFrom_eq (h : m.RunsIn budget n) {fuel : Nat} (hfuel : n ≤ fuel) :
    runFrom fuel budget 0 m [] = m.ran n := by
  have hfits := h.fits
  refine (runFrom_stepped hfuel h.least (by simpa using hfits)).trans ?_
  simp only [UInt64.zero_add]
  rfl

theorem run_eq (h : m.RunsIn budget n) : run budget m = m.ran n := h.runFrom_eq h.bound

theorem toNat_run (h : m.RunsIn budget n) : (run budget m).value.1.toNat = m.elapsed n := by
  rw [h.run_eq, toNat_ran h.fits]

end RunsIn

theorem exists_runsIn {budget : UInt64} (h : Fault.counter ∉ (run budget m).record.faults) :
    ∃ n, m.RunsIn budget n := by
  obtain ⟨n, hn, hleast, hclock⟩ := exists_least h (by simp) (Nat.zero_le _)
  exact ⟨n, hn, hleast, hclock⟩

def runBoth (a b : UInt64) : Run γ δ UInt64 := do
  let e ← run a
  let f ← run b
  return e + f

theorem RunsIn.both {a b : UInt64} {n k : Nat} (hn : m.RunsIn a n) (hk : (m.after n).RunsIn b k)
    (hfits : (run a m).value.1.toNat + b.toNat < 0x10000000000000000) :
    m.RunsIn ((run a m).value.1 + b) (n + k) := by
  have hsum : ((run a m).value.1 + b).toNat = m.elapsed n + b.toNat := by
    rw [UInt64.toNat_add, Nat.mod_eq_of_lt hfits, hn.toNat_run]
  have hbound := hn.bound
  have hreached := hn.least.reached
  have hbound' := hk.bound
  refine ⟨by omega, hsum ▸ hn.least.add hk.least, ?_⟩
  rw [after_add, hk.clock, hn.clock, elapsed_add, Nat.add_assoc]

/-- A run takes just the steps that its budget needs, however many it is allowed, and gives the cycles
that they take. What two runs do one after the other, a single run does, with the same record. -/
theorem runs_cut (m : Machine γ δ) :
    (∀ budget, Fault.counter ∉ (run budget m).record.faults → ∃ n, m.Least budget.toNat n ∧
      run budget m = m.ran n ∧ (run budget m).value.1.toNat = m.elapsed n ∧
      ∀ fuel, n ≤ fuel → runFrom fuel budget 0 m [] = m.ran n) ∧
    ∀ a b, Fault.counter ∉ (runBoth a b m).record.faults →
      (run a m).value.1.toNat + b.toNat < 0x10000000000000000 →
      run ((run a m).value.1 + b) m = runBoth a b m ∧
      (runBoth a b m).value.1.toNat =
        (run a m).value.1.toNat + (run b (run a m).value.2).value.1.toNat := by
  refine ⟨fun budget h => ?_, fun a b h hfits => ?_⟩
  · obtain ⟨n, hn⟩ := exists_runsIn h
    exact ⟨n, hn.least, hn.run_eq, hn.toNat_run, fun _ hfuel => hn.runFrom_eq hfuel⟩
  · have hparts : Fault.counter ∉ (run a m).record.faults ++
        ((run b (run a m).value.2).record.faults ++ []) := h
    rw [List.append_nil, List.mem_append, not_or] at hparts
    obtain ⟨n, hn⟩ := exists_runsIn hparts.1
    have hafter : (run a m).value.2 = m.after n := by rw [hn.run_eq, ran_after]
    rw [hafter] at hparts ⊢
    obtain ⟨k, hk⟩ := exists_runsIn hparts.2
    have hboth := hn.both hk hfits
    have hrun : run ((run a m).value.1 + b) m = runBoth a b m := by
      rw [hboth.run_eq, ran_add, ← hn.run_eq]
      refine Reported.bind_congr_value
        (g := fun p : UInt64 × Machine γ δ => run b p.2 >>= fun q => pure (p.1 + q.1, q.2)) ?_
      rw [hafter, hk.run_eq]
    refine ⟨hrun, ?_⟩
    rw [← hrun, hboth.toNat_run, elapsed_add, hn.toNat_run, hk.toNat_run]

set_option maxRecDepth 10000 in
theorem runs_cut_bare : Fault.counter ∉ (run 3 bare).record.faults ∧
    Fault.counter ∉ (runBoth 3 4 bare).record.faults ∧
    (∃ n, bare.Least 3 n ∧ run 3 bare = bare.ran n) ∧ (run 3 bare).value.1 = 5 ∧
    run 9 bare = runBoth 3 4 bare ∧ (runBoth 3 4 bare).value.1 = 10 := by
  have hfirst : Fault.counter ∉ (run 3 bare).record.faults := by decide +kernel
  have hboth : Fault.counter ∉ (runBoth 3 4 bare).record.faults := by decide +kernel
  have helapsed : (run 3 bare).value.1 = 5 := by decide +kernel
  have hfits : (run 3 bare).value.1.toNat + (4 : UInt64).toNat < 0x10000000000000000 := by
    rw [helapsed]
    decide
  obtain ⟨n, hn, hrun, -⟩ := (runs_cut bare).1 3 hfirst
  have hcut := ((runs_cut bare).2 3 4 hboth hfits).1
  rw [helapsed] at hcut
  exact ⟨hfirst, hboth, ⟨n, hn, hrun⟩, helapsed, hcut, by decide +kernel⟩

end Machine
end R3000
