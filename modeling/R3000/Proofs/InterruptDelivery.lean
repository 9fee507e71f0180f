import R3000.Proofs.InterruptLine
import R3000.Proofs.SystemControl

/-! # When interrupts are taken

A step is interrupted exactly where interrupts are enabled and one that is not masked is pending: the
line, or one of the two that software raises in the cause register. Entering an exception disables
interrupts, and only a return or a move to the status register enables them again. -/
namespace R3000.Machine
variable {γ δ : Type} {m t : Machine γ δ} {s : Nat → Machine γ δ} {k : Nat}

def presented (m : Machine γ δ) : UInt32 := (m.cpu.regs.cop0.sample m.bus.int.line).cause.ip

def software (m : Machine γ δ) (i : Nat) : Bool := Word.bit m.cpu.regs.cop0.cause.word (8 + i)

theorem bit_presented (m : Machine γ δ) (i : Nat) : Word.bit m.presented i =
    (decide (i < 8) && if i = 2 then m.bus.int.line else m.software i) := by
  have hfield : Word.bit m.presented i = (_ && decide (i < 8)) :=
    Word.bit_field _ (show 8 < 32 by decide) (show 8 < 32 by decide) i
  rw [hfield, Bool.and_comm]
  by_cases hi : i < 8
  · have hset := Word.bit_setBit m.cpu.regs.cop0.cause.word (show 10 < 32 by decide)
      (show 8 + i < 32 by omega) m.bus.int.line
    have h10 : 10 = 8 + i ↔ i = 2 := by omega
    simp only [hi, Cop0.sample, Cause.setIp2, hset, h10, software]
  · simp [hi]

/-- A step of a machine either takes an exception or does not. -/
theorem raises_or_undisturbed (m : Machine γ δ) : (∃ e, m.Raises e) ∨ m.Undisturbed := by
  cases h : (attempt m).value.1.exception with
  | none => exact .inr h
  | some e => exact .inl ⟨e, h⟩

theorem raises_interrupt_iff : m.Raises .interrupt ↔ m.opened.cpu.regs.cop0.interrupted := by
  have hcourse := m.course
  simp only [Raises]
  generalize (attempt m).value = p at *
  generalize m.completed? = i? at *
  obtain ⟨a, t⟩ := p
  have hcode : Exception.interrupt.code = 0 := rfl
  cases hcourse with
  | interrupted hi => exact ⟨fun _ => hi, fun _ => rfl⟩
  | skipped hi | completed hi => exact ⟨fun h => (by cases h), fun h => absurd h hi⟩
  | refused hi ho =>
    refine ⟨fun h => ?_, fun h => absurd h hi⟩
    cases h
    exact absurd hcode ((Restrained.obtain _).raises _ _ ho).code_ne
  | faulted hi ho hd hp =>
    refine ⟨fun h => ?_, fun h => absurd h hi⟩
    cases h
    exact absurd hcode ((Restrained.perform hp).raises _ _ hp).code_ne

theorem interrupted_opened : m.opened.cpu.regs.cop0.interrupted ↔
    m.cpu.regs.cop0.status.ieC ∧ m.cpu.regs.cop0.status.im &&& m.presented ≠ 0 := by
  show (_ && _ != 0) = true ↔ _
  rw [Bool.and_eq_true, bne_iff_ne]
  rfl

/-- Of the pending interrupts a step changes only the one that shows the line, and those of software by
a move to the cause register. -/
theorem bit_cause_step {i : Nat} (h8 : 8 ≤ i) (h16 : i < 16) (h10 : i ≠ 10)
    (h : 10 < i ∨ ∀ c, m.completed? = some c → ¬c.moves 13) :
    Word.bit (step m).value.2.cpu.regs.cop0.cause.word i = Word.bit m.cpu.regs.cop0.cause.word i := by
  obtain ⟨e, he⟩ | hu := m.raises_or_undisturbed
  · obtain ⟨c, hmarked, hproper, hcop0⟩ := he.entry.cop0
    rw [hcop0]
    exact (Cop0.entered hmarked hproper ..).cause i (by omega) (by omega) h10
  · obtain ⟨c, hmarked, hcop0⟩ := hu.cop0_step
    have hcause : Word.bit c.cause.word i = Word.bit m.cpu.regs.cop0.cause.word i :=
      (Cop0.Kept.of_marked hmarked).cause i (by omega) h10
    rw [hcop0, ← hcause]
    cases hc : m.completed? with
    | none => rfl
    | some j =>
      rcases h with hi | hj
      · exact Instruction.bit_governs (by omega) (by omega) (by omega)
      · exact congrArg (Word.bit ·.word i) (Instruction.cause_governs (hj j hc))

/-- No other interrupt is ever pending. -/
theorem Reachable.cause_clear (h : m.Reachable) {i : Nat} (h11 : 11 ≤ i) (h16 : i < 16) :
    Word.bit m.cpu.regs.cop0.cause.word i = false := by
  have hzero : Word.bit ({} : Cause).word i = false := Nat.zero_testBit i
  induction h with
  | create | reset => exact hzero
  | attachGte _ _ _ ih | attachDevice _ _ _ ih => exact ih
  | listen _ _ _ ih | bindReader _ _ _ ih | bindWriter _ _ _ ih => exact ih
  | raise _ _ ih | serialInput _ _ _ _ ih => exact ih
  | loadRom image _ ih => rwa [cpu_loadRom]
  | poke addr words _ ih => rwa [cpu_poke]
  | @restore _ _ _ _ m c _ _ _ ih =>
    rw [m.restore_saved c.savestate]
    exact ih
  | next _ ih =>
    rw [cpu_next, bit_cause_step (by omega) h16 (by omega) (.inl (by omega))]
    exact ih

/-- What comes of a machine by steps that complete no move to the cause register, and by all that a host
does short of a reset and of restoring a savestate. -/
inductive Unforced {γ δ : Type} (m : Machine γ δ) : {γ' δ' : Type} → Machine γ' δ' → Prop
  | refl : Unforced m m
  | attachGte {γ' γ'' δ' : Type} {n : Machine γ' δ'} (gte : Gte γ'') (gteState : γ'') :
      Unforced m n → Unforced m ⟨n.config, n.cpu, n.bus, gte, gteState⟩
  | attachDevice {γ' δ' : Type} {n : Machine γ' δ'} (device : Device δ') (outside : δ') :
      Unforced m n → Unforced m { n with bus := { n.bus with device, outside } }
  | loadRom {γ' δ' : Type} {n : Machine γ' δ'} (image : ByteArray) :
      Unforced m n → Unforced m (loadRom image n).value.2
  | poke {γ' δ' : Type} {n : Machine γ' δ'} (addr : UInt32) (words : List UInt32) :
      Unforced m n → Unforced m (poke addr words n).value.2
  | raise {γ' δ' : Type} {n : Machine γ' δ'} (sources : UInt32) :
      Unforced m n → Unforced m (onBus (Bus.raise sources) n).value.2
  | serialInput {γ' δ' : Type} {n : Machine γ' δ'} (port : Nat) (mask levels : UInt32) :
      Unforced m n → Unforced m (onBus (Bus.serialInput port mask levels) n).value.2
  | listen {γ' δ' : Type} {n : Machine γ' δ'} (port : Nat) (l : Serial.Listener δ') :
      Unforced m n → Unforced m (listen port l n).value.2
  | bindReader {γ' δ' : Type} {n : Machine γ' δ'} (channel : Nat) (r : Dma.Reader δ') :
      Unforced m n → Unforced m (bindReader channel r n).value.2
  | bindWriter {γ' δ' : Type} {n : Machine γ' δ'} (channel : Nat) (w : Dma.Writer δ') :
      Unforced m n → Unforced m (bindWriter channel w n).value.2
  | next {γ' δ' : Type} {n : Machine γ' δ'} : (∀ i, n.completed? = some i → ¬i.moves 13) →
      Unforced m n → Unforced m (next n).value.2

theorem Unforced.software {γ' δ' : Type} {n : Machine γ' δ'} (h : m.Unforced n) {i : Nat} (hi : i < 2) :
    n.software i = m.software i := by
  induction h with
  | refl => rfl
  | attachGte _ _ _ ih | attachDevice _ _ _ ih => exact ih
  | listen _ _ _ ih | bindReader _ _ _ ih | bindWriter _ _ _ ih => exact ih
  | raise _ _ ih | serialInput _ _ _ _ ih => exact ih
  | loadRom image _ ih => rwa [Machine.software, cpu_loadRom]
  | poke addr words _ ih => rwa [Machine.software, cpu_poke]
  | next hc _ ih =>
    rw [Machine.software, cpu_next, bit_cause_step (by omega) (by omega) (by omega) (.inr hc)]
    exact ih

/-- The next step completes neither a return from an exception nor a move to the status register. -/
def Unreleased (m : Machine γ δ) : Prop :=
  ∀ i, m.completed? = some i → i.returns = false ∧ ¬i.moves 12

theorem Raises.disables {e : Exception} (he : m.Raises e) :
    (step m).value.2.cpu.regs.cop0.status.ieC = false := by
  obtain ⟨c, hmarked, hproper, hcop0⟩ := he.entry.cop0
  rw [hcop0]
  exact (Cop0.entered hmarked hproper ..).status 0 (by decide)

/-- Interrupts stay disabled in a step that does not release them, even if it raises an exception. -/
theorem Unreleased.disabled (h : m.Unreleased) (hd : m.cpu.regs.cop0.status.ieC = false) :
    (step m).value.2.cpu.regs.cop0.status.ieC = false := by
  obtain ⟨e, he⟩ | hu := m.raises_or_undisturbed
  · exact he.disables
  · obtain ⟨c, hmarked, hcop0⟩ := hu.cop0_step
    have hstatus : c.status = m.cpu.regs.cop0.status := hmarked.status
    rw [hcop0]
    cases hc : m.completed? with
    | none => exact (congrArg Status.ieC hstatus).trans hd
    | some i =>
      obtain ⟨hr, hm⟩ := h i hc
      rw [Option.elim_some, Instruction.status_governs hr hm, hstatus, hd]

/-- From the entry of an exception on interrupts are disabled until they are released. -/
theorem Successive.disabled (hs : Successive s) {e : Exception} (he : (s k).Raises e) {j : Nat}
    (hj : k < j) (hu : ∀ i, k < i → i < j → (s i).Unreleased) :
    (s j).cpu.regs.cop0.status.ieC = false := by
  induction j with
  | zero => exact absurd hj (Nat.not_lt_zero k)
  | succ j ih =>
    rw [hs j]
    obtain rfl | hlt := Nat.eq_or_lt_of_le (Nat.le_of_lt_succ hj)
    · exact he.disables
    · exact (hu j hlt (Nat.lt_succ_self j)).disabled
        (ih hlt fun i hi hij => hu i hi (Nat.lt_succ_of_lt hij))

/-- How interrupts reach the processor of a machine. -/
structure Delivers (m : Machine γ δ) : Prop where
  line : m.bus.int.line ↔ m.bus.int.pending &&& m.bus.int.enabled ≠ 0
  taken : m.Raises .interrupt ↔
    m.cpu.regs.cop0.status.ieC ∧ m.cpu.regs.cop0.status.im &&& m.presented ≠ 0
  /-- The interrupt takes the place of the instruction. -/
  unexecuted : m.Raises .interrupt → m.completed? = none ∧
    (attempt m).value = (⟨m.cpu.regs.pc, false, some .interrupt⟩, m.opened)
  presentedSoftware : ∀ i < 2, Word.bit m.presented i = m.software i
  presentedLine : Word.bit m.presented 2 = m.bus.int.line
  presentedNone : ∀ i, 3 ≤ i → Word.bit m.presented i = false
  software : ∀ {γ' δ' : Type} {n : Machine γ' δ'}, m.Unforced n → ∀ i < 2, n.software i = m.software i
  softwareReset : ∀ i < 2, (reset m).value.2.software i = false
  /-- Entering an exception keeps interrupts out of every run until they are released. -/
  masked : ∀ s : Nat → Machine γ δ, s 0 = m → Successive s → ∀ k e, (s k).Raises e → ∀ j, k < j →
    (∀ i, k < i → i < j → (s i).Unreleased) → ¬(s j).Raises .interrupt

theorem Reachable.delivers (h : m.Reachable) : m.Delivers where
  line := by
    rw [h.shown]
    exact bne_iff_ne
  taken := raises_interrupt_iff.trans interrupted_opened
  unexecuted he := by
    have hi := raises_interrupt_iff.mp he
    exact ⟨if_pos hi, attempt_interrupted hi⟩
  presentedSoftware i hi := by
    have h8 : i < 8 := by omega
    have h2 : i ≠ 2 := by omega
    simp [bit_presented, h8, h2]
  presentedLine := by simp [bit_presented]
  presentedNone i hi := by
    rw [bit_presented]
    by_cases h8 : i < 8
    · have h2 : i ≠ 2 := by omega
      have hclear : m.software i = false := h.cause_clear (by omega) (by omega)
      simp [h2, hclear]
    · simp [h8]
  software hn i hi := hn.software hi
  softwareReset i _ := Nat.zero_testBit (8 + i)
  masked s _ hs k e he j hj hu hint := by
    have hd := hs.disabled he hj hu
    have hi := (interrupted_opened.mp (raises_interrupt_iff.mp hint)).1
    rw [hd] at hi
    cases hi

/-- A program that enables a source and the interrupts of the line, and has that source raised. -/
def signalled : Machine Gte.Registers Unit :=
  (onBus (Bus.raise 1)
    ((booting [0x3c091f80, 0x34080401, 0xad281074, 0x40886000, 0] (by decide)).steps 4)).value.2

set_option maxRecDepth 10000 in
theorem delivers_signalled : signalled.Reachable ∧ signalled.bus.int.line ∧
    signalled.Raises .interrupt ∧ signalled.completed? = none ∧ ¬(signalled.after 1).Raises .interrupt := by
  have hreach : signalled.Reachable := ((reachable_booting _ _).steps 4).raise 1
  have hdelivers := hreach.delivers
  have hline : signalled.bus.int.line := hdelivers.line.mpr (by decide +kernel)
  have hraises : signalled.Raises .interrupt := hdelivers.taken.mpr (by decide +kernel)
  refine ⟨hreach, hline, hraises, (hdelivers.unexecuted hraises).1, ?_⟩
  exact hdelivers.masked _ rfl (successive_after _) 0 _ hraises 1 (by decide) fun i hi hi' => by omega

end R3000.Machine
