import R3000.Proofs.CacheIsolation
import R3000.Proofs.SystemControl

/-! # The instruction that a step executes

A step that is not interrupted executes the instruction that it fetches, on the machine that the fetch
leaves. Where the instruction completes, memory and the system control registers are at the next step
what it has left, and the registers are what its effect makes of them. -/
namespace R3000

/-- Registers that are kept make the data breakpoint catch the same. -/
theorem Cop0.Kept.catches {c d : Cop0} (h : c.Kept d) (access : Access) (vaddr : UInt32) :
    d.catches access vaddr = c.catches access vaddr := by
  have hbit := h.dcic
  have hsame : d.bda = c.bda ∧ d.bdam = c.bdam ∧ d.status = c.status := by
    rw [h.same]
    exact ⟨rfl, rfl, rfl⟩
  obtain ⟨hbda, hbdam, hstatus⟩ := hsame
  simp only [Cop0.catches, Dcic.armed, Dcic.dae, Dcic.de, Dcic.ud, Dcic.kd]
  rw [hbda, hbdam, hstatus]
  cases access <;> simp (disch := decide) only [Cop0.watches, Dcic.dr, Dcic.dw, hbit]

def Effect.target? : Effect → Option Reg
  | .keep => none
  | .write r _ | .load r _ => some r

namespace Machine
variable {γ δ : Type} {m t u : Machine γ δ} {i : Instruction}

def executing? (m : Machine γ δ) : Option Instruction :=
  if m.opened.cpu.regs.cop0.interrupted then none
  else
    match (obtain m.cpu.regs.pc m.opened).value.1 with
    | .error _ => none
    | .ok word => Instruction.decode word

theorem executing_inv (h : m.executing? = some i) : ¬m.opened.cpu.regs.cop0.interrupted ∧
    ∃ word, (obtain m.cpu.regs.pc m.opened).value = (.ok word, m.supplied) ∧
      Instruction.decode word = some i := by
  simp only [executing?] at h
  split at h
  · cases h
  · rename_i hi
    have hsupplied : m.supplied = (obtain m.cpu.regs.pc m.opened).value.2 := if_neg hi
    refine ⟨hi, ?_⟩
    rw [hsupplied]
    generalize (obtain m.cpu.regs.pc m.opened).value = p at h ⊢
    obtain ⟨r, t⟩ := p
    cases r with
    | error e => cases h
    | ok word => exact ⟨word, rfl, h⟩

/-- An instruction that faults is all that its step does before the exception is entered. -/
theorem attempt_faulted (h : m.executing? = some i) {e : Exception}
    (hp : (perform m.operands m.cpu.regs.pc i m.supplied).value = (.error e, u)) :
    (attempt m).value = (⟨m.cpu.regs.pc, true, some e⟩, u) := by
  obtain ⟨hi, word, ho, hd⟩ := executing_inv h
  rw [← operands_of_opened (front_obtained ho)] at hp
  rw [attempt_obtained hi ho]
  refine attemptWord_faulted hd ?_
  rw [execute_eq, exec_bind_error hp]

theorem attempt_completed (h : m.executing? = some i) {e : Effect}
    (hp : (perform m.operands m.cpu.regs.pc i m.supplied).value = (.ok e, u)) :
    (attempt m).value = (⟨m.cpu.regs.pc, true, none⟩,
      (finish (i.decision m.cpu.regs.pc m.cpu.regs.gpr) e u).value.2) ∧ m.effect = e := by
  obtain ⟨hi, word, ho, hd⟩ := executing_inv h
  have hfront := front_obtained ho
  refine ⟨?_, effect_completed hi ho hd hp⟩
  rw [← operands_of_opened hfront] at hp
  rw [attempt_obtained hi ho, ← gpr_of_opened hfront]
  refine attemptWord_completed hd ?_
  rw [execute_eq, exec_bind_ok hp]
  cases e <;> cases i.decision m.cpu.regs.pc m.supplied.cpu.regs.gpr <;> rfl

theorem raises_faulted (h : m.executing? = some i) {e e' : Exception}
    (hp : (perform m.operands m.cpu.regs.pc i m.supplied).value = (.error e, u)) :
    m.Raises e' ↔ e' = e := by
  simp only [Raises]
  rw [attempt_faulted h hp]
  exact ⟨fun h => (Option.some.inj h).symm, fun h => congrArg some h.symm⟩

theorem not_raises_of_completed (h : m.executing? = some i) {e : Effect}
    (hp : (perform m.operands m.cpu.regs.pc i m.supplied).value = (.ok e, u)) (e' : Exception) :
    ¬m.Raises e' := by
  simp only [Raises]
  rw [(attempt_completed h hp).1]
  exact (Option.some_ne_none e').symm

/-- The exception of an instruction that faults is entered over what it has recorded. -/
theorem cop0_faulted (h : m.executing? = some i) {e : Exception}
    (hp : (perform m.operands m.cpu.regs.pc i m.supplied).value = (.error e, u)) :
    (next m).value.2.cpu.regs.cop0.dcic = u.cpu.regs.cop0.dcic ∧
      (next m).value.2.cpu.regs.cop0.badVaddr = e.badVaddr.getD u.cpu.regs.cop0.badVaddr := by
  have hstep := step_value m
  rw [attempt_faulted h hp] at hstep
  obtain ⟨hentry, -⟩ := conclude_entry m.cpu.regs.pc true e u
  rw [cpu_next, hstep, hentry]
  exact ⟨rfl, rfl⟩

/-- Up to the fetch the system control registers show the interrupt line, and may record a hit. -/
theorem cop0_supplied (m : Machine γ δ) : m.cpu.regs.cop0.Kept m.supplied.cpu.regs.cop0 := by
  have hopened : (m.cpu.regs.cop0.sample m.bus.int.line).Marked m.opened.cpu.regs.cop0 := .refl _
  simp only [supplied]
  split
  · exact .of_marked hopened
  · exact .of_marked (hopened.trans (kept_obtained (t := (obtain m.cpu.regs.pc m.opened).value.2) rfl).1)

/-- What an instruction has left behind the registers, in the caches and in memory. -/
structure Left (u t : Machine γ δ) : Prop where
  cop0 : t.cpu.regs.cop0 = u.cpu.regs.cop0
  caches : t.cpu.caches = u.cpu.caches
  ram : t.bus.ram = u.bus.ram
  rom : t.bus.rom = u.bus.rom

theorem left_of_completed (h : m.executing? = some i) {e : Effect}
    (hp : (perform m.operands m.cpu.regs.pc i m.supplied).value = (.ok e, u)) :
    Left u (next m).value.2 := by
  obtain ⟨hattempt, -⟩ := attempt_completed h hp
  obtain ⟨hcop0, hcaches, -⟩ := finish_kept (i.decision m.cpu.regs.pc m.cpu.regs.gpr) e u
  obtain ⟨hend, hend'⟩ := conclude_kept m.cpu.regs.pc true
    (finish (i.decision m.cpu.regs.pc m.cpu.regs.gpr) e u).value.2
  have hbus := (finish_backs (i.decision m.cpu.regs.pc m.cpu.regs.gpr) e u).bus
  have hbacks := m.attempt_backs
  have hstep := step_value m
  rw [hattempt] at hstep hbacks
  have hstands : Bus.Standing (step m).value.2.bus (next m).value.2.bus :=
    (Bus.update_stands (b := (step m).value.2.bus) _).1
  refine ⟨?_, ?_, hstands.ram.trans ?_, hstands.rom.trans ?_⟩
  · rw [cpu_next, hstep, hend, hcop0]
  · rw [cpu_next, hstep, hend', hcaches]
  · rw [hbacks.bus, hbus]
  · rw [hbacks.bus, hbus]

/-- After a step the load that was on its way has landed, and the one that the step has issued is on its
way. -/
theorem Reachable.lands (h : m.Reachable) :
    (∀ r, (Machine.next m).value.2.cpu.regs.gpr r = m.effect.landed m.operands r) ∧
      (Machine.next m).value.2.cpu.slots.load = m.effect.issued := by
  obtain ⟨a, e, u, hwork, hoperands, hnext, hstep, -⟩ := step_settled m
  have heffect : m.effect = e :=
    congrArg Prod.fst (value_then (x := work m.operands) hwork fun p => closing p.1 >>= fun _ => pure p.2)
  have hload : u.cpu.slots.load = m.cpu.slots.load := congrArg Operands.load hoperands
  have hnone := hnext.trans h.nextLoad_none
  have hslots : u.cpu.slots.WellFormed := ⟨hload ▸ h.wellFormed.slots.load, hnone ▸ nofun⟩
  have hcpu : (Machine.next m).value.2.cpu = (closing a (settle e u).value.2).value.2.cpu :=
    (cpu_next m).trans (congrArg Machine.cpu hstep)
  obtain ⟨hgprs, hsent, -⟩ := closing_front a (settle e u).value.2
  rw [← hcpu] at hgprs hsent
  refine ⟨fun r => ?_, ?_⟩
  · rw [gpr_congr hgprs, settle_gpr e hslots, hoperands, heffect]
  · rw [hsent, settle_load e hnone, heffect]

theorem Reachable.after (h : m.Reachable) (k : Nat) : (m.after k).Reachable := by
  induction k with
  | zero => exact h
  | succ k ih => exact ih.next

/-- A load lands in the step after the one that has issued it, unless the register is the target of that. -/
theorem Reachable.gpr_landed (h : m.Reachable) {k : Nat} {r : Reg}
    (ht : (m.after k).effect.target? ≠ some r) :
    (m.after (k + 1)).cpu.regs.gpr r = (m.after k).operands.pending r := by
  have hland := (h.after k).lands.1 r
  refine hland.trans ?_
  cases he : (m.after k).effect with
  | keep => rfl
  | write s value | load s value =>
    have hne : r ≠ s := fun hr => ht (by rw [he, hr]; rfl)
    simp [Effect.landed, hne]

/-- It is on its way until then. -/
theorem Reachable.pending_issued (h : m.Reachable) {k : Nat} {r : Reg} {value : UInt32}
    (he : (m.after k).effect = .load r value) (hr : r ≠ .zero) :
    (m.after (k + 1)).operands.pending r = value := by
  have hload : (m.after (k + 1)).cpu.slots.load = (m.after k).effect.issued := (h.after k).lands.2
  rw [he, Effect.issued, if_neg hr] at hload
  simp only [Operands.pending, operands]
  rw [hload]
  simp [LoadDelay.valueFor]

end Machine
end R3000
