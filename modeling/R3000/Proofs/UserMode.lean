import R3000.Proofs.ExceptionEntry

/-! # User mode

In user mode, and without the use of the system control coprocessor, instructions are executed from
kuseg, load from there and store to there, and the system control registers keep their values. Only an
exception ends that. -/
namespace R3000

/-- The system control registers are the same but for the interrupt line that they show, and for the
hits that are recorded of breakpoints. -/
structure Cop0.Kept (c d : Cop0) : Prop where
  same : d = { c with cause := d.cause, dcic := d.dcic }
  cause : ∀ i < 32, i ≠ 10 → Word.bit d.cause.word i = Word.bit c.cause.word i
  dcic : ∀ i, 6 ≤ i → i < 32 → Word.bit d.dcic.word i = Word.bit c.dcic.word i

namespace Cop0.Kept
variable {c d e : Cop0}

theorem refl (c : Cop0) : Kept c c := ⟨rfl, fun _ _ _ => rfl, fun _ _ _ => rfl⟩

theorem trans (h : Kept c d) (k : Kept d e) : Kept c e := by
  refine ⟨?_, fun i hi hi' => (k.cause i hi hi').trans (h.cause i hi hi'),
    fun i hi hi' => (k.dcic i hi hi').trans (h.dcic i hi hi')⟩
  rw [k.same, h.same]

theorem status (h : Kept c d) : d.status = c.status := by rw [h.same]

theorem of_marked {line : Bool} (h : (c.sample line).Marked d) : Kept c d := by
  have hcause : d.cause = c.cause.setIp2 line := by
    rw [h.same]
    rfl
  refine ⟨?_, fun i hi hi' => ?_, h.dcic⟩
  · rw [h.same]
    rfl
  · rw [hcause]
    exact (Word.bit_setBit _ (by decide) hi line).trans (if_neg (Ne.symm hi'))

end Cop0.Kept

namespace Machine
variable {γ δ α β : Type} {m t u : Machine γ δ}

/-- In user mode, without the use of the system control coprocessor. -/
structure Guarded (m : Machine γ δ) : Prop where
  user : m.userMode
  unusable : m.cpu.regs.cop0.status.cu 0 = false

theorem Guarded.congr (h : m.Guarded) (hs : t.cpu.regs.cop0.status = m.cpu.regs.cop0.status) :
    t.Guarded := by
  constructor
  · simp only [userMode]
    rw [hs]
    exact h.user
  · rw [hs]
    exact h.unusable

section Accesses
variable (hm : m.userMode)
include hm

/-- An access from user mode that gets past its checks goes to kuseg. -/
theorem kuseg_of_checked {access : Access} {vaddr base : UInt32} {w : Width}
    {f : Unit → Exec γ δ α} {a : α}
    (h : ((checkDataBreakpoint access vaddr >>= fun _ => checkAccess access base w >>= f) m).value =
      (.ok a, u)) : Segment.of base = .kuseg := by
  obtain ⟨_, t, ht, h⟩ := exec_bind_inv h
  obtain ⟨_, v, hv, -⟩ := exec_bind_inv h
  exact (checkAccess_ok hv).2
    ((Restrained.userMode
      ((Restrained.closed behindKuseg).beside.checkDataBreakpoint access vaddr) ht).trans hm)

theorem kuseg_of_load {vaddr value : UInt32} {w : Width}
    (h : (load vaddr w m).value = (.ok value, u)) : Segment.of vaddr = .kuseg :=
  kuseg_of_checked hm h

theorem kuseg_of_store {vaddr value : UInt32} {w : Width} {a : Unit}
    (h : (store vaddr value w m).value = (.ok a, u)) : Segment.of vaddr = .kuseg :=
  kuseg_of_checked hm h

theorem kuseg_of_storePieces {vaddr value : UInt32} {l : Fin 4} {pieces : List (UInt32 × Width)} {a : Unit}
    (hp : ∀ p ∈ pieces, p ∈ Lane.upTo l ++ Lane.onward l)
    (h : (storePieces vaddr value pieces m).value = (.ok a, u)) :
    ∀ v ∈ pieces.map (fun p => Lane.base vaddr + p.1), Segment.of v = .kuseg := by
  intro v hv
  obtain ⟨p, hpiece, rfl⟩ := List.mem_map.mp hv
  rw [segment_piece (Lane.base_add_piece (hp p hpiece) vaddr)]
  exact kuseg_of_checked hm h

theorem kuseg_of_brought {op : Load} {current vaddr value : UInt32}
    (h : (brought op current vaddr m).value = (.ok value, u)) :
    Segment.of (op.access vaddr) = .kuseg := by
  cases op with
  | lb | lh | lwl | lwr =>
    obtain ⟨_, _, h, -⟩ := exec_bind_inv h
    exact kuseg_of_load hm h
  | lbu | lhu | lw => exact kuseg_of_load hm h

theorem kuseg_of_executeStore {op : Store} {vaddr value : UInt32} {a : Unit}
    (h : (executeStore op vaddr value m).value = (.ok a, u)) :
    ∀ v ∈ op.accesses vaddr, Segment.of v = .kuseg := by
  cases op with
  | sb | sh | sw => simpa [Store.accesses] using kuseg_of_store hm h
  | swl =>
    rw [executeStore_swl] at h
    exact kuseg_of_storePieces hm (fun _ hp => List.mem_append_left _ hp) h
  | swr =>
    rw [executeStore_swr] at h
    exact kuseg_of_storePieces hm (fun _ hp => List.mem_append_right _ hp) h

theorem kuseg_of_performLoadCop {o : Operands} {z : Cop} {f : Immediate} {a : Unit}
    (h : (performLoadCop o z f m).value = (.ok a, u)) :
    ∀ v ∈ z.accesses (o.address f), Segment.of v = .kuseg := by
  obtain ⟨_, t, ht, h⟩ := exec_bind_inv h
  obtain ⟨vaddr, v, hv, h⟩ := exec_bind_inv h
  have hu := (Restrained.userMode ((Restrained.closed behindKuseg).beside.requireCop z) ht).trans hm
  cases hv
  by_cases hz : z = .geometry
  · rw [if_pos hz] at h
    obtain ⟨_, _, h, -⟩ := exec_bind_inv h
    simpa [Cop.accesses, hz] using kuseg_of_load hu h
  · simp [Cop.accesses, hz]

theorem kuseg_of_performStoreCop {o : Operands} {z : Cop} {f : Immediate} {a : Unit}
    (h : (performStoreCop o z f m).value = (.ok a, u)) :
    ∀ v ∈ z.accesses (o.address f), Segment.of v = .kuseg := by
  obtain ⟨_, t, ht, h⟩ := exec_bind_inv h
  obtain ⟨vaddr, v, hv, h⟩ := exec_bind_inv h
  have hu := (Restrained.userMode ((Restrained.closed behindKuseg).beside.requireCop z) ht).trans hm
  cases hv
  by_cases hz : z = .geometry
  · rw [if_pos hz] at h
    obtain ⟨_, w, hw, h⟩ := exec_bind_inv h
    obtain ⟨_, x, hx, h⟩ := exec_bind_inv h
    cases hx
    have hu' := (Restrained.userMode ((Restrained.closed behindKuseg).await _) hw).trans hu
    simpa [Cop.accesses, hz] using kuseg_of_store hu' h
  · simp [Cop.accesses, hz]

theorem kuseg_of_perform {o : Operands} {pc : UInt32} {i : Instruction} {e : Effect}
    (h : (perform o pc i m).value = (.ok e, u)) : ∀ v ∈ i.accesses o, Segment.of v = .kuseg := by
  cases i with
  | jump op f | register op f => simp [Instruction.accesses]
  | immediate op f =>
    cases op with
    | alu op | branch op => simp [Instruction.accesses]
    | load op =>
      obtain ⟨vaddr, t, ht, h⟩ := exec_bind_inv h
      obtain ⟨value, v, hv, -⟩ := exec_bind_inv h
      cases ht
      simpa [Instruction.accesses] using kuseg_of_brought hm hv
    | store op =>
      obtain ⟨vaddr, t, ht, h⟩ := exec_bind_inv h
      obtain ⟨_, v, hv, -⟩ := exec_bind_inv h
      cases ht
      exact kuseg_of_executeStore hm hv
    | lwc z =>
      obtain ⟨_, _, h, -⟩ := exec_bind_inv h
      exact kuseg_of_performLoadCop hm h
    | swc z =>
      obtain ⟨_, _, h, -⟩ := exec_bind_inv h
      exact kuseg_of_performStoreCop hm h

theorem kuseg_of_fetch {pc word : UInt32} (h : (fetch pc m).value = (.ok word, u)) :
    Segment.of pc = .kuseg := by
  by_cases hs : (Segment.of pc).kernel
  · have hbad : (!Width.word.aligned pc || (Segment.of pc).kernel && m.userMode) = true := by
      simp [hs, hm]
    have hfetch : (fetch pc m).value = (.error (Access.fetch.addressError pc), m) := by
      show ((if !Width.word.aligned pc || (Segment.of pc).kernel && m.userMode then _ else _ :
        Exec γ δ UInt32) m).value = _
      rw [if_pos hbad]
      rfl
    rw [hfetch] at h
    cases h
  · cases hof : Segment.of pc <;> simp_all [Segment.kernel]

theorem kuseg_of_obtain {pc word : UInt32} (h : (obtain pc m).value = (.ok word, u)) :
    Segment.of pc = .kuseg := by
  obtain ⟨_, t, ht, h⟩ := exec_bind_inv h
  exact kuseg_of_fetch
    ((Restrained.userMode
      ((Restrained.closed behindKuseg).beside.checkExecutionBreakpoint pc) ht).trans hm) h

end Accesses

theorem requireCop_guarded (h : m.Guarded) :
    (requireCop .system m).value = (.error (.copUnusable 0), m) := by
  have husable : m.cpu.regs.cop0.status.usable 0 = false := by
    have huser : m.cpu.regs.cop0.status.kuC = true := h.user
    simp [Status.usable, h.unusable, huser]
  show ((if !(present .system && m.cpu.regs.cop0.status.usable 0) then _ else _ : Exec γ δ Unit)
    m).value = _
  rw [husable]
  rfl

/-- The system control coprocessor refuses its instructions, and all others keep to the restraint. -/
theorem Guarded.perform (h : m.Guarded) {ok : UInt32 → Prop} {o : Operands} {i : Instruction}
    (ha : ∀ v ∈ i.accesses o, Admits (forUser ok) v) (pc : UInt32) :
    Restrained ok (perform o pc i) m := by
  refine (Restrained.closed ok).perform ha pc fun f _ =>
    Restrained.performCop0 (e := .copUnusable 0) (t := m) ?_
  unfold performCop0
  rw [exec_bind_error (requireCop_guarded h)]

theorem finish_kept (d : BranchDelay) (e : Effect) (t : Machine γ δ) :
    (finish d e t).value.2.cpu.regs.cop0 = t.cpu.regs.cop0 ∧
      (finish d e t).value.2.cpu.caches = t.cpu.caches ∧ (finish d e t).record.acts = [] := by
  cases e with
  | keep | load => cases d <;> exact ⟨rfl, rfl, rfl⟩
  | write r value =>
    have hcop0 := congrArg RegisterFile.cop0 (t.cpu.regs.setGpr_frame r value)
    cases d <;> exact ⟨hcop0, rfl, rfl⟩

theorem conclude_kept (pc : UInt32) (executed : Bool) (t : Machine γ δ) :
    (conclude ⟨pc, executed, none⟩ t).value.2.cpu.regs.cop0 = t.cpu.regs.cop0 ∧
      (conclude ⟨pc, executed, none⟩ t).value.2.cpu.caches = t.cpu.caches := by
  have hcop0 := congrArg RegisterFile.cop0 (DelaySlots.land_frame t.cpu.slots.load t.cpu.regs)
  cases executed <;> exact ⟨hcop0, rfl⟩

theorem guarded_opened (h : m.Guarded) : m.opened.Guarded := h.congr rfl

/-- Up to where it retires, a step in user mode has kept to the restraint. -/
theorem Course.kept {a : Attempt} {c : Option Instruction} (h : Course m a c t) (hg : m.Guarded) :
    m.opened.cpu.regs.cop0.Marked t.cpu.regs.cop0 ∧ t.cpu.caches.biu = m.cpu.caches.biu := by
  have hobtain : ∀ {r t}, (obtain m.cpu.regs.pc m.opened).value = (r, t) →
      m.opened.cpu.regs.cop0.Marked t.cpu.regs.cop0 ∧ t.cpu.caches.biu = m.cpu.caches.biu :=
    fun ho => ⟨(kept_obtained ho).1, (kept_obtained ho).2 hg.user⟩
  have hperform : ∀ {word i r t u}, (obtain m.cpu.regs.pc m.opened).value = (.ok word, t) →
      (perform m.operands m.cpu.regs.pc i t).value = (r, u) →
      m.opened.cpu.regs.cop0.Marked u.cpu.regs.cop0 ∧ u.cpu.caches.biu = m.cpu.caches.biu := by
    intro word i r t u ho hp
    have ht : t.Guarded := (guarded_opened hg).congr (kept_obtained ho).1.status
    obtain ⟨hmarked, hbiu⟩ := kept_performed ho (ht.perform (fun v _ => admits_behindKuseg v) _) hp
    exact ⟨hmarked, hbiu hg.user⟩
  cases h with
  | interrupted hi => exact ⟨.refl _, rfl⟩
  | refused hi ho => exact hobtain ho
  | skipped hi ho hd => exact hobtain ho
  | faulted hi ho hd hp => exact hperform ho hp
  | @completed _ _ u i effect hi ho hd hp =>
    obtain ⟨hcop0, hcaches, -⟩ := finish_kept (i.decision m.cpu.regs.pc m.cpu.regs.gpr) effect u
    rw [hcop0, hcaches]
    exact hperform ho hp

/-- What a step in user mode that takes no exception leaves as it was. -/
theorem Guarded.keeps (hg : m.Guarded) (h : m.Undisturbed) :
    m.cpu.regs.cop0.Kept (step m).value.2.cpu.regs.cop0 ∧
      (step m).value.2.cpu.caches.biu = m.cpu.caches.biu := by
  obtain ⟨hmarked, hbiu⟩ := m.course.kept hg
  simp only [Undisturbed] at h
  rw [step_value]
  generalize (attempt m).value = p at *
  obtain ⟨⟨pc, executed, exception⟩, t⟩ := p
  subst h
  obtain ⟨hcop0, hcaches⟩ := conclude_kept pc executed t
  rw [hcop0, hcaches]
  exact ⟨.of_marked hmarked, hbiu⟩

theorem Guarded.pc (hg : m.Guarded) (h : m.Undisturbed) : Segment.of m.cpu.regs.pc = .kuseg := by
  have hcourse := m.course
  have hopened := guarded_opened hg
  simp only [Undisturbed] at h
  generalize (attempt m).value = p at *
  generalize m.completed? = c at *
  obtain ⟨a, t⟩ := p
  cases hcourse with
  | interrupted | refused | faulted => cases h
  | skipped hi ho hd => exact kuseg_of_obtain hopened.user ho
  | completed hi ho hd hp => exact kuseg_of_obtain hopened.user ho

theorem Guarded.accesses (hg : m.Guarded) {i : Instruction} (h : m.completed? = some i) :
    ∀ v ∈ i.accesses m.operands, Segment.of v = .kuseg := by
  have hcourse := m.course
  rw [h] at hcourse
  generalize (attempt m).value = p at *
  obtain ⟨a, t⟩ := p
  cases hcourse with
  | completed hi ho hd hp =>
    exact kuseg_of_perform (((Restrained.obtain _).userMode ho).trans hg.user) hp

/-- The line that the instruction at `pc` lies in, and what these virtual addresses translate to. -/
def touched (pc : UInt32) (accesses : List UInt32) (addr : UInt32) : Prop :=
  addr.toNat / 16 = (translate pc).toNat / 16 ∨ ∃ vaddr ∈ accesses, translate vaddr = addr

theorem admits_touched (pc : UInt32) {accesses : List UInt32} {vaddr : UInt32}
    (h : vaddr ∈ accesses) : Admits (forUser (touched pc accesses)) vaddr :=
  fun _ _ _ => .inr ⟨vaddr, h, rfl⟩

theorem admitsFetch_touched (pc : UInt32) (accesses : List UInt32) :
    AdmitsFetch (forUser (touched pc accesses)) pc := by
  refine fun _ _ => ⟨fun _ => .inl rfl, fun w _ => .inl ?_⟩
  rw [ICache.Address.toNat_wordAddr]
  omega

/-- The acts of a step are those of getting its instruction and those of its work. -/
theorem step_acts {P : Act → Prop} (hobtain : Moves (acting P) (obtain m.cpu.regs.pc) m.opened)
    (hperform : ∀ word t, (obtain m.cpu.regs.pc m.opened).value = (.ok word, t) →
      ∀ i, Instruction.decode word = some i →
        Moves (acting P) (perform m.operands m.cpu.regs.pc i) t) :
    ∀ a ∈ (step m).record.acts, P a := by
  have hexecute : ∀ word t, (obtain m.cpu.regs.pc m.opened).value = (.ok word, t) →
      Moves (acting P) (executeWord word m.cpu.regs.pc) t := by
    intro word t ht
    unfold executeWord
    split
    · refine .exec_lift_bind ((acting P).still t _) ?_
      simp only [Moves]
      rw [execute_eq, operands_of_opened (front_obtained ht)]
      exact Moves.exec_bind (hperform word t ht _ ‹_›) fun e u _ => acting_of_acts (finish_kept _ e u).2.2
    · exact .exec_lift ((acting P).still t _)
  have hattempt : Moves (acting P) attempt m := by
    refine .bind (.modify ((acting P).still m [])) fun _ t ht => .bind (.get_bind
      (.bind (.modify ((acting P).still t [])) fun _ _ _ => .pure _)) fun pc u hu => .bind (.get_bind
      (.lift_bind (acting_of_acts (acts_count _ _)) (.modify ((acting P).still u [])))) fun _ v hv =>
      .get_bind ?_
    have hopened : pc = m.cpu.regs.pc ∧ v = m.opened := by
      cases ht
      cases hu
      cases hv
      exact ⟨rfl, rfl⟩
    obtain ⟨rfl, rfl⟩ := hopened
    dsimp only
    split
    · exact .quiet_bind (.note _) (.pure _)
    refine .bind hobtain fun r w hw => ?_
    cases r with
    | error e => exact .pure _
    | ok word =>
      refine .bind (hexecute word w hw) fun r _ _ => ?_
      cases r <;> exact .pure _
  have hstep : Moves (acting P) (attempt >>= conclude) m :=
    .bind hattempt fun a _ _ => acting_of_acts (conclude_silent a)
  rw [step_eq]
  exact hstep

theorem step_asks {ok : UInt32 → Prop} (h : m.Guarded) (hpc : AdmitsFetch (forUser ok) m.cpu.regs.pc)
    (ha : ∀ word t, (obtain m.cpu.regs.pc m.opened).value = (.ok word, t) →
      ∀ i, Instruction.decode word = some i → ∀ v ∈ i.accesses m.operands, Admits (forUser ok) v) :
    (step m).record.Asks ok := by
  have hobtain := (Restrained.closed ok).beside.obtain (m := m.opened) hpc
  refine step_acts (hobtain.asks (guarded_opened h).user) fun word t ht i hi => ?_
  -- the word is executed where it was obtained, in user mode still
  have hguarded := (guarded_opened h).congr (hobtain.kept ht).1.status
  exact (hguarded.perform (ha word t ht i hi) _).asks hguarded.user

/-- A step in user mode asks the device only about addresses behind kuseg, even if it raises an
exception. -/
theorem Guarded.asks (h : m.Guarded) : (step m).record.Asks behindKuseg :=
  step_asks h (admitsFetch_behindKuseg _) fun _ _ _ _ _ v _ => admits_behindKuseg v

/-- The device is asked about nothing but the instruction and its accesses. -/
theorem Guarded.asks_touched (h : m.Guarded) {i : Instruction} (hi : m.completed? = some i) :
    (step m).record.Asks (touched m.cpu.regs.pc (i.accesses m.operands)) := by
  refine step_asks h (admitsFetch_touched _ _) fun word t ho j hj v hv => ?_
  have hcourse := m.course
  rw [hi] at hcourse
  generalize (attempt m).value = p at hcourse
  obtain ⟨a, u⟩ := p
  cases hcourse with
  | completed hn ho' hd hp =>
    -- the word that is executed is the one that encodes the completed instruction
    cases ho.symm.trans ho'
    cases hj.symm.trans hd
    exact admits_touched _ hv

variable {s : Nat → Machine γ δ} {k : Nat}

/-- In step `k` of a run the processor is in user mode, and is confined to kuseg. -/
structure ConfinedAt (s : Nat → Machine γ δ) (k : Nat) : Prop where
  user : (s k).cpu.regs.cop0.status.kuC
  cop0 : (s 0).cpu.regs.cop0.Kept (s k).cpu.regs.cop0
  biu : (s k).cpu.caches.biu = (s 0).cpu.caches.biu
  pc : (s k).Undisturbed → (s k).cpu.regs.pc < 0x80000000
  accesses : ∀ i, (s k).completed? = some i →
    ∀ vaddr ∈ i.accesses (s k).operands, vaddr < 0x80000000
  /-- The device is asked about no others. -/
  asked : ∀ i, (s k).completed? = some i →
    (step (s k)).record.Asks (touched (s k).cpu.regs.pc (i.accesses (s k).operands))
  /-- Even a step that raises an exception reaches no other part of the physical address space. -/
  device : (step (s k)).record.Asks behindKuseg
  stays : (s k).Undisturbed → (s (k + 1)).cpu.regs.cop0.status.kuC
  /-- Only an exception ends user mode, and it leads into its handler. -/
  leaves : ¬(s (k + 1)).cpu.regs.cop0.status.kuC → ∃ e, (s k).Raises e ∧
    (s (k + 1)).cpu.regs.pc = e.handler.address (s k).cpu.regs.cop0.status.bev

/-- As long as it takes no exception a run stays in user mode. -/
theorem Successive.guarded (hs : Successive s) (h : (s 0).Guarded) (hk : ∀ j < k, (s j).Undisturbed) :
    (s k).Guarded ∧ (s 0).cpu.regs.cop0.Kept (s k).cpu.regs.cop0 ∧
      (s k).cpu.caches.biu = (s 0).cpu.caches.biu := by
  induction k with
  | zero => exact ⟨h, .refl _, rfl⟩
  | succ k ih =>
    -- the mode and the enable bit are in the status register, which the step leaves alone
    obtain ⟨hg, hcop0, hbiu⟩ := ih fun j hj => hk j (Nat.lt_succ_of_lt hj)
    obtain ⟨hstep, hstep'⟩ := hg.keeps (hk k (Nat.lt_succ_self k))
    rw [← hs k] at hstep hstep'
    exact ⟨hg.congr hstep.status, hcop0.trans hstep, hstep'.trans hbiu⟩

/-- From any state in user mode without the use of the system control coprocessor, a run is confined to
kuseg until it takes an exception, and by that it enters a handler. -/
theorem Successive.confined (hs : Successive s) (huser : (s 0).cpu.regs.cop0.status.kuC)
    (hcu : (s 0).cpu.regs.cop0.status.cu 0 = false) (hk : ∀ j < k, (s j).Undisturbed) :
    ConfinedAt s k := by
  obtain ⟨hg, hcop0, hbiu⟩ := hs.guarded ⟨huser, hcu⟩ hk
  have hstays : (s k).Undisturbed → (s (k + 1)).cpu.regs.cop0.status.kuC := fun h => by
    have hnext := (hg.keeps h).1.status
    rw [← hs k] at hnext
    rw [hnext]
    exact hg.user
  refine ⟨hg.user, hcop0, hbiu, fun h => Segment.of_eq_kuseg.mp (hg.pc h), fun i hi v hv =>
    Segment.of_eq_kuseg.mp (hg.accesses hi v hv), fun i hi => hg.asks_touched hi, hg.asks, hstays,
    fun hkernel => ?_⟩
  cases he : (attempt (s k)).value.1.exception with
  | none => exact absurd (hstays he) hkernel
  | some e =>
    have hraises : (s k).Raises e := he
    exact ⟨e, hraises, by rw [hs k, hraises.entry.pc]⟩

/-- A program in user mode: it loads a word, and then reaches for the system control coprocessor. -/
def penned : Machine Gte.Registers Unit :=
  let m := booting [0x8c080000, 0x40086000] (by decide)
  { m with
    cpu := { m.cpu with
      regs := { m.cpu.regs with
        pc := 0x1fc00000
        cop0 := { m.cpu.regs.cop0 with status := ⟨0x00400002⟩ } } } }

set_option maxRecDepth 10000 in
theorem confined_penned : Successive penned.after ∧ penned.cpu.regs.cop0.status.kuC ∧
    penned.cpu.regs.cop0.status.cu 0 = false ∧ (∀ j < 1, (penned.after j).Undisturbed) ∧
    (penned.after 1).Raises (.copUnusable 0) ∧ (penned.after 2).cpu.regs.pc = 0xbfc00180 := by
  have hs := successive_after penned
  have hk : ∀ j < 1, (penned.after j).Undisturbed := by
    intro j hj
    cases Nat.lt_one_iff.mp hj
    simp only [Undisturbed]
    decide +kernel
  have he : (penned.after 1).Raises (.copUnusable 0) := by
    simp only [Raises]
    decide +kernel
  have hconfined := hs.confined (k := 1) (by decide) (by decide) hk
  have hkernel : ¬(penned.after 2).cpu.regs.cop0.status.kuC := by decide +kernel
  obtain ⟨e, he', hpc⟩ := hconfined.leaves hkernel
  cases he'.symm.trans he
  refine ⟨hs, by decide, by decide, hk, he, hpc.trans ?_⟩
  decide +kernel

end Machine
end R3000
