import R3000.Proofs.HostCalls
import R3000.Proofs.Runs

/-! # No time is lost

The geometry engine is never busy for longer than the longest answer to a command, so no step takes more
cycles than the devices can be given at a time: they get all of them. -/
namespace R3000

theorem MulDivOp.toNat_latency_le (op : MulDivOp) (lhs : UInt32) : (op.latency lhs).toNat ≤ 36 := by
  cases op <;> simp only [latency] <;> (try split) <;> (try split) <;> decide

namespace Machine
variable {γ δ : Type} {m : Machine γ δ}

/-- The machines that a host can bring about while no counter overruns. -/
inductive Unbroken : {γ δ : Type} → Machine γ δ → Prop
  | create {γ δ : Type} (config : Config) (gte : Gte γ) (gteState : γ) (device : Device δ)
      (outside : δ) : Unbroken (create config gte gteState device outside)
  | handled {γ δ γ' δ' : Type} {m : Machine γ δ} {t : Machine γ' δ'} :
      Handled m t → Unbroken m → Unbroken t
  | restore {γ δ γ' δ' : Type} {m : Machine γ δ} {c : Machine γ' δ'} :
      Unbroken m → Unbroken c → Unbroken (m.restore c.savestate.toBytes).value.2
  | next {γ δ : Type} {m : Machine γ δ} : m.InTime → Unbroken m → Unbroken (next m).value.2

theorem Unbroken.reachable (h : Unbroken m) : m.Reachable := by
  induction h with
  | create => exact .create _ _ _ _ _
  | handled hcall _ ih => exact hcall.reachable ih
  | restore _ _ ih ih' => exact .restore ih ih'
  | next _ _ ih => exact .next ih

/-- The result that is pending is there in time. -/
def Results.Prompt (r : Results) : Prop := ∀ p, r.muldiv.pending = some p → p.latency.toNat ≤ 36

theorem Results.Prompt.stall_le {r : Results} (h : r.Prompt) : r.stall.toNat ≤ 36 := by
  unfold stall
  cases hp : r.muldiv.pending with
  | none => exact Nat.zero_le _
  | some p =>
    have hlatency := h p hp
    simp only [Option.elim_some, MulDivPending.stall, UInt32.toNat_ofNat']
    omega

theorem Results.Prompt.operate {r : Results} (h : r.Prompt) (i : Instruction) (gpr : Reg → UInt32) :
    (i.operate gpr r).Prompt := by
  cases hu : i.usesUnit with
  | false =>
    rw [i.operate_unused hu]
    exact h
  | true =>
    match i, hu with
    | .register (.muldiv op) f, _ =>
      rintro p ⟨⟩
      exact op.toNat_latency_le _
    | .register .mfhi _, _ | .register .mflo _, _ | .register .mthi _, _ | .register .mtlo _, _ =>
      exact nofun

/-- Neither the unit nor the geometry engine keeps a step waiting for long. -/
structure Timely (m : Machine γ δ) : Prop where
  unit : m.results.Prompt
  engine : m.cpu.clock.gteReadyAt.toNat ≤ m.cpu.clock.cycles.toNat + 0xffffffff

namespace Timely

theorem of_cpu {γ' δ' : Type} {t : Machine γ' δ'} (h : m.Timely) (ht : t.cpu = m.cpu) : t.Timely := by
  have hunit := h.unit
  have hengine := h.engine
  simp only [results] at hunit
  rw [← ht] at hunit hengine
  exact ⟨hunit, hengine⟩

theorem powerOn {prid : UInt32} (hm : m.cpu = .powerOn prid) : m.Timely := by
  refine ⟨?_, ?_⟩
  · intro p hp
    simp only [results] at hp
    rw [hm] at hp
    cases hp
  · rw [hm]
    exact Nat.zero_le _

theorem next (h : m.Timely) (hm : m.InTime) : (Machine.next m).value.2.Timely := by
  obtain ⟨hleast, -, hengine⟩ := Clocked.next hm
  have hready := h.engine
  refine ⟨?_, ?_⟩
  · show (step m).value.2.results.Prompt
    rw [results_step]
    cases m.completed? with
    | none => exact h.unit
    | some i => exact h.unit.operate i _
  · rcases hengine with hkept | hlate
    · rw [hkept]
      omega
    · exact hlate

/-- A step takes no longer than the devices can be told. -/
theorem elapsed_le (h : m.Timely) (hm : m.InTime) : (Machine.next m).value.1.toNat ≤ 0xffffffff := by
  have hmost := (Clocked.next hm).most
  have hstall := h.unit.stall_le
  have hready := h.engine
  have helapsed := hm.elapsed.2
  omega

end Timely

theorem Unbroken.timely (h : Unbroken m) : m.Timely := by
  induction h with
  | create => exact .powerOn rfl
  | handled hcall _ ih =>
    rcases hcall.cpu with hcpu | hcpu
    · exact ih.of_cpu hcpu
    · exact .powerOn hcpu
  | @restore _ _ _ _ m c _ _ _ ih =>
    rw [m.restore_saved c.savestate]
    exact ih.of_cpu rfl
  | next hm _ ih => exact ih.next hm

def handed (m : Machine γ δ) : UInt32 := deviceCycles (next m).value.1

theorem toNat_deviceCycles {elapsed : UInt64} (h : elapsed.toNat ≤ 0xffffffff) :
    (deviceCycles elapsed).toNat = elapsed.toNat := by
  rw [deviceCycles, if_pos (Nat.lt_succ_of_le h), UInt64.toNat_toUInt32]
  exact Nat.mod_eq_of_lt (Nat.lt_succ_of_le h)

theorem inTime_after {n : Nat} (h : Fault.counter ∉ (stepped n m).record.faults) :
    ∀ k < n, (m.after k).InTime := by
  induction n generalizing m with
  | zero => exact nofun
  | succ n ih =>
    have hparts : Fault.counter ∉ (Machine.next m).record.faults ++
        ((stepped n (Machine.next m).value.2).record.faults ++ []) := h
    rw [List.append_nil, List.mem_append, not_or] at hparts
    intro k hk
    cases k with
    | zero => exact hparts.1
    | succ k =>
      rw [after_succ]
      exact ih hparts.2 k (Nat.lt_of_succ_lt_succ hk)

theorem Unbroken.after (h : Unbroken m) {n : Nat} (hn : ∀ k < n, (m.after k).InTime) :
    Unbroken (m.after n) := by
  induction n with
  | zero => exact h
  | succ n ih => exact .next (hn n (Nat.lt_succ_self n)) (ih fun k hk => hn k (Nat.lt_succ_of_lt hk))

def handedIn (m : Machine γ δ) : Nat → Nat
  | 0 => 0
  | n + 1 => m.handedIn n + (m.after n).handed.toNat

theorem Unbroken.handedIn_eq (h : Unbroken m) {n : Nat} (hn : ∀ k < n, (m.after k).InTime) :
    m.handedIn n = m.elapsed n := by
  induction n with
  | zero => rfl
  | succ n ih =>
    have hkept := ih fun k hk => hn k (Nat.lt_succ_of_lt hk)
    have hin := hn n (Nat.lt_succ_self n)
    have htimely := (h.after fun k hk => hn k (Nat.lt_succ_of_lt hk)).timely
    have hhanded := toNat_deviceCycles (htimely.elapsed_le hin)
    rw [handedIn, hkept, handed, hhanded, elapsed_add]
    rfl

/-- No time is lost: a step takes at least one cycle, and hands all of its cycles to the devices. So what
they are handed in a run is what the run gives, and what the clock goes on by. -/
theorem Unbroken.keepsTime (h : Unbroken m) :
    m.cpu.clock.gteReadyAt.toNat ≤ m.cpu.clock.cycles.toNat + 0xffffffff ∧
    (m.InTime → 1 ≤ (Machine.next m).value.1.toNat ∧ (Machine.next m).value.1.toNat ≤ 0xffffffff ∧
      (Machine.next m).value.2.bus = (Bus.update m.handed (step m).value.2.bus).value.2 ∧
      m.handed.toNat = (Machine.next m).value.1.toNat) ∧
    ∀ budget, Fault.counter ∉ (run budget m).record.faults → ∃ n,
      (run budget m).value.2 = m.after n ∧ (run budget m).value.1.toNat = m.handedIn n ∧
      (run budget m).value.2.cpu.clock.cycles.toNat = m.cpu.clock.cycles.toNat + m.handedIn n := by
  refine ⟨h.timely.engine, fun hm => ?_, fun budget hrun => ?_⟩
  · have hmost := h.timely.elapsed_le hm
    exact ⟨hm.elapsed.1, hmost, rfl, toNat_deviceCycles hmost⟩
  · obtain ⟨n, hn⟩ := exists_runsIn hrun
    have hcounter : Fault.counter ∉ (stepped n m).record.faults := by
      rw [hn.run_eq, ran, Reported.record_map] at hrun
      exact hrun
    have hafter : (run budget m).value.2 = m.after n := by rw [hn.run_eq, ran_after]
    have hhanded := h.handedIn_eq (inTime_after hcounter)
    refine ⟨n, hafter, ?_, ?_⟩
    · rw [hhanded, hn.toNat_run]
    · rw [hhanded, hafter, hn.clock]

/-- An engine that takes as long over a command as it can say. -/
def slow : Gte Unit where
  data _ _ := 0
  setData _ _ _ := ()
  control _ _ := 0
  setControl _ _ _ := ()
  execute _ _ := { latency := 0xffffffff, state := () }

theorem unbroken_booting (words : List UInt32) (h : (words.flatMap littleEndian).length ≤ romSize) :
    Unbroken (booting words h) := by
  have hload : Unbroken (loadRom ⟨⟨words.flatMap littleEndian⟩⟩ bare).value.2 :=
    .handled (.loadRom _ _) (.create _ _ _ _ _)
  simp only [loadRom] at hload
  rw [ofImage?_starting h] at hload
  exact hload

/-- A command to the slow engine, and then a read from it. -/
def commanding : Machine Unit Unit :=
  let m := booting [0x3c084000, 0x40886000, 0x4a000001, 0x48090000] (by decide)
  ⟨m.config, m.cpu, m.bus, slow, ()⟩

theorem unbroken_commanding : Unbroken commanding :=
  .handled (.attachGte _ slow ()) (unbroken_booting _ (by decide))

set_option maxRecDepth 10000 in
theorem keepsTime_commanding : Unbroken (commanding.after 3) ∧ (commanding.after 3).InTime ∧
    Fault.counter ∉ (run 16 commanding).record.faults ∧
    (commanding.after 3).handed.toNat = 0xffffffff ∧
    ∃ n, (run 16 commanding).value.2 = commanding.after n ∧ commanding.handedIn n = 0x10000000e := by
  have hin : ∀ k < 3, (commanding.after k).InTime := by
    simp only [InTime]
    decide +kernel
  have hbusy := unbroken_commanding.after hin
  have hnext : (commanding.after 3).InTime := by
    simp only [InTime]
    decide +kernel
  have hrun : Fault.counter ∉ (run 16 commanding).record.faults := by decide +kernel
  obtain ⟨-, -, -, hhanded⟩ := hbusy.keepsTime.2.1 hnext
  obtain ⟨n, hafter, hsum, -⟩ := unbroken_commanding.keepsTime.2.2 16 hrun
  refine ⟨hbusy, hnext, hrun, ?_, n, hafter, ?_⟩
  · rw [hhanded]
    decide +kernel
  · rw [← hsum]
    decide +kernel

end Machine
end R3000
