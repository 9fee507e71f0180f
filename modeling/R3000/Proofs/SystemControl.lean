import R3000.Proofs.UserMode

/-! # What a step does to the system control registers

It shows the interrupt line and records hits of breakpoints. More is done only by an exception, by a
move to one of the registers and by the return from an exception. -/
namespace R3000

namespace Instruction

def returns : Instruction → Bool
  | .register (.cop z) f => z == .system && Machine.isCommand f && f.funct.val == 0x10
  | _ => false

/-- The number of the system control register that an instruction moves a word to, and the register that
holds the word. -/
def moved? : Instruction → Option (Reg × Reg)
  | .register (.cop z) f =>
    if z == .system && !Machine.isCommand f && f.rs.val == 4 then some (f.rd, f.rt) else none
  | _ => none

def moves (i : Instruction) (index : Nat) : Prop := ∃ r s, i.moved? = some (r, s) ∧ r.val = index

/-- What an instruction that completes makes of the system control registers. -/
def governs (i : Instruction) (gpr : Reg → UInt32) (c : Cop0) : Cop0 :=
  if i.returns then { c with status := c.status.pop }
  else i.moved?.elim c fun (r, s) => (c.write r (gpr s)).value

end Instruction

namespace Cop0
variable {c : Cop0} {index : Nat}

theorem status_write (h : index ≠ 12) (value : UInt32) :
    (c.write index value).value.status = c.status := by
  unfold write
  split
  all_goals first | rfl | exact absurd rfl h

theorem cause_write (h : index ≠ 13) (value : UInt32) :
    (c.write index value).value.cause = c.cause := by
  unfold write
  split
  all_goals first | rfl | exact absurd rfl h

end Cop0

namespace Instruction
variable {i : Instruction} {gpr : Reg → UInt32} {c : Cop0}

theorem returns_inv (h : i.returns) :
    ∃ f, i = .register (.cop .system) f ∧ Machine.isCommand f ∧ f.funct = 0x10 := by
  match i with
  | .register (.cop z) f =>
    simp only [returns, Bool.and_eq_true, beq_iff_eq] at h
    obtain ⟨⟨rfl, hf⟩, hfunct⟩ := h
    exact ⟨f, rfl, hf, Fin.ext hfunct⟩

theorem moved?_inv {p : Reg × Reg} (h : i.moved? = some p) :
    ∃ f, i = .register (.cop .system) f ∧ ¬Machine.isCommand f ∧ f.rs = 4 ∧ p = (f.rd, f.rt) := by
  match i with
  | .register (.cop z) f =>
    simp only [moved?, Option.ite_none_right_eq_some, Bool.and_eq_true, beq_iff_eq] at h
    obtain ⟨⟨⟨rfl, hf⟩, hrs⟩, hp⟩ := h
    exact ⟨f, rfl, by simpa using hf, Fin.ext hrs, (Option.some.inj hp).symm⟩

/-- Besides exceptions, only moves to the status register and returns change it. -/
theorem status_governs (hr : i.returns = false) (hm : ¬i.moves 12) :
    (i.governs gpr c).status = c.status := by
  simp only [governs]
  rw [hr, if_neg nofun]
  cases h : i.moved? with
  | none => rfl
  | some p => exact Cop0.status_write (fun hp => hm ⟨p.1, p.2, h, hp⟩) _

theorem cause_governs (hm : ¬i.moves 13) : (i.governs gpr c).cause = c.cause := by
  simp only [governs]
  split
  · rfl
  cases h : i.moved? with
  | none => rfl
  | some p => exact Cop0.cause_write (fun hp => hm ⟨p.1, p.2, h, hp⟩) _

/-- Even a move to the cause register writes the two software interrupts alone. -/
theorem bit_governs {k : Nat} (hk : k < 32) (h8 : k ≠ 8) (h9 : k ≠ 9) :
    Word.bit (i.governs gpr c).cause.word k = Word.bit c.cause.word k := by
  by_cases hm : i.moves 13
  · obtain ⟨r, s, h, hr⟩ := hm
    simp only [governs]
    split
    · rfl
    rw [h]
    have hmask : ∀ k < 32, k ≠ 8 → k ≠ 9 → Word.bit Cause.writable k = false := by decide
    have hcause : (c.write r (gpr s)).value.cause = c.cause.write (gpr s) := by
      rw [hr]
      rfl
    show Word.bit (c.write r (gpr s)).value.cause.word k = _
    rw [hcause]
    simp [Cause.write, Word.bit_not _ hk, hmask k hk h8 h9]
  · rw [cause_governs hm]

end Instruction

namespace Machine
variable {γ δ : Type} {m t u : Machine γ δ}

namespace Restrained
variable {ok : UInt32 → Prop} {f : Register}

/-- All commands but the return from an exception are only remarked on. -/
theorem commandCop0 (h : f.funct ≠ 0x10) (pc : UInt32) : Restrained ok (commandCop0 f pc) m := by
  have hnote : ∀ n, Restrained ok (note n : Exec γ δ Unit) m := fun n => (closed ok).report m (.note n)
  unfold Machine.commandCop0
  split
  iterate 4 exact hnote _
  · exact absurd (Fin.ext ‹_›) h
  · exact hnote _

/-- So are all moves to where no system control register is. -/
theorem performCop0_of (o : Operands) (pc : UInt32)
    (hr : (Instruction.register (.cop .system) f).returns = false)
    (hm : (Instruction.register (.cop .system) f).moved? = none) :
    Restrained ok (Machine.performCop0 o pc f) m := by
  refine ((closed ok).beside.requireCop _).seq fun _ t _ => ?_
  by_cases hf : isCommand f
  · rw [if_pos hf]
    have hfunct : f.funct.val ≠ 0x10 := by simpa [Instruction.returns, hf] using hr
    exact (commandCop0 (ne_of_apply_ne Fin.val hfunct) pc).seq fun _ u _ => (closed ok).ret _ u
  · rw [if_neg hf]
    have hrs : f.rs.val ≠ 4 := by simpa [Instruction.moved?, hf] using hm
    split
    · refine (closed ok).look (fun _ _ => rfl) ?_
      split
      · exact (closed ok).ret _ t
      · exact (closed ok).beside.note_seq ((closed ok).ret _ t)
    · exact absurd ‹_› hrs
    · exact (closed ok).beside.note_seq ((closed ok).ret _ t)
    · exact (closed ok).beside.note_seq ((closed ok).ret _ t)
    · exact (closed ok).ret _ t
    · exact (closed ok).beside.note_seq ((closed ok).ret _ t)

/-- An instruction that neither returns from an exception nor moves a word to a system control register
keeps to the restraint. -/
theorem perform_of {i : Instruction} (o : Operands) (pc : UInt32) (hr : i.returns = false)
    (hm : i.moved? = none) : Restrained behindKuseg (Machine.perform o pc i) m := by
  refine (closed _).perform (fun v _ => admits_behindKuseg v) pc fun f hi => ?_
  subst hi
  exact performCop0_of o pc hr hm

end Restrained

theorem cop0_perform_returns {o : Operands} {pc : UInt32} {i : Instruction} {e : Effect}
    (hr : i.returns) (h : (perform o pc i m).value = (.ok e, u)) :
    u.cpu.regs.cop0 = { m.cpu.regs.cop0 with status := m.cpu.regs.cop0.status.pop } := by
  obtain ⟨f, rfl, hf, hfunct⟩ := Instruction.returns_inv hr
  obtain ⟨_, t, ht, hrest⟩ := exec_bind_inv h
  cases requireCop_ok ht
  rw [if_pos hf] at hrest
  unfold commandCop0 at hrest
  rw [hfunct] at hrest
  cases hrest
  rfl

theorem cop0_perform_moved {o : Operands} {pc : UInt32} {i : Instruction} {e : Effect} {r s : Reg}
    (hm : i.moved? = some (r, s)) (h : (perform o pc i m).value = (.ok e, u)) :
    u.cpu.regs.cop0 = (m.cpu.regs.cop0.write r (o.gpr s)).value := by
  obtain ⟨f, rfl, hf, hrs, hp⟩ := Instruction.moved?_inv hm
  cases hp
  obtain ⟨_, t, ht, hrest⟩ := exec_bind_inv h
  cases requireCop_ok ht
  rw [if_neg hf, hrs] at hrest
  cases hrest
  rfl

/-- An instruction that completes records hits of breakpoints, and does to the system control registers
what it governs. -/
theorem cop0_perform {o : Operands} {pc : UInt32} {i : Instruction} {e : Effect}
    (h : (perform o pc i m).value = (.ok e, u)) :
    ∃ c, m.cpu.regs.cop0.Marked c ∧ u.cpu.regs.cop0 = i.governs o.gpr c := by
  by_cases hr : i.returns
  · exact ⟨_, .refl _, by simp [cop0_perform_returns hr h, Instruction.governs, hr]⟩
  · cases hm : i.moved? with
    | some p =>
      exact ⟨_, .refl _, by simp [cop0_perform_moved hm h, Instruction.governs, hr, hm]⟩
    | none =>
      have hkept := Restrained.perform_of (m := m) o pc (Bool.eq_false_iff.mpr hr) hm
      exact ⟨_, (hkept.kept h).1, by simp [Instruction.governs, hr, hm]⟩

/-- A step that takes no exception shows the interrupt line and records hits of breakpoints; what its
instruction governs comes last. -/
theorem Undisturbed.cop0_step (h : m.Undisturbed) :
    ∃ c, (m.cpu.regs.cop0.sample m.bus.int.line).Marked c ∧ (step m).value.2.cpu.regs.cop0 =
      m.completed?.elim c fun i => i.governs m.cpu.regs.gpr c := by
  have hcourse := m.course
  simp only [Undisturbed] at h
  rw [step_value]
  generalize (attempt m).value = p at *
  generalize m.completed? = i? at *
  obtain ⟨a, t⟩ := p
  cases hcourse with
  | interrupted | refused | faulted => cases h
  | skipped hi ho hd =>
    rw [(conclude_kept _ _ _).1]
    exact ⟨_, (kept_obtained ho).1, rfl⟩
  | @completed _ t u i effect hi ho hd hp =>
    rw [(conclude_kept _ _ _).1, (finish_kept _ _ _).1]
    obtain ⟨c, hmarked, hgoverned⟩ := cop0_perform hp
    exact ⟨c, (kept_obtained ho).1.trans hmarked, hgoverned⟩

end Machine
end R3000
