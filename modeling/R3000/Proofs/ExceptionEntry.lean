import R3000.Proofs.BranchDelay
import R3000.Proofs.Restraint
import R3000.Proofs.WordBits

/-! # Entering exceptions

An exception shows where execution is to be resumed. In a delay slot that is the branch, which is what
the instruction before was just in case this one sits in a slot. -/
namespace R3000

theorem Status.bit_push (s : Status) {i : Nat} (hi : i < 32) :
    Word.bit s.push.word i =
      if i < 2 then false else if i < 6 then Word.bit s.word (i - 2) else Word.bit s.word i := by
  have hshift := Word.bit_shiftLeft s.word (show 2 < 32 by decide) hi
  rw [show UInt32.ofNat 2 = 2 from rfl] at hshift
  simp only [push, Word.bit_setField _ _ (show 0 < 32 by decide) (show 6 < 32 by decide) hi]
  by_cases h2 : i < 2
  · have hlt : i < 6 := by omega
    have hlow : ¬2 ≤ i := by omega
    simp [h2, hlt, hlow, hshift]
  · have hlow : 2 ≤ i := by omega
    by_cases h6 : i < 6 <;> simp [h2, h6, hlow, hshift]

namespace Cause

def shown (c : Cause) (e : Exception) (inSlot taken : Bool) : Cause :=
  (((c.setExcCode e.code).setCe e.cop).setBd inSlot).setBt (inSlot && taken)

variable {c : Cause} {e : Exception} {inSlot taken : Bool}

theorem bit_shown {i : Nat} (hi : i < 32) :
    Word.bit (c.shown e inSlot taken).word i =
      if i = 30 then inSlot && taken
      else if i = 31 then inSlot
      else if 28 ≤ i then Word.bit e.cop (i - 28)
      else if 2 ≤ i ∧ i < 7 then Word.bit e.code (i - 2)
      else Word.bit c.word i := by
  have hbit (w : UInt32) (j : Nat) (hj : j < 32) (b : Bool) := Word.bit_setBit w hj hi b
  have hcode := Word.bit_setField c.word e.code (show 2 < 32 by decide) (show 5 < 32 by decide) hi
  have hce (w : UInt32) := Word.bit_setField w e.cop (show 28 < 32 by decide) (show 2 < 32 by decide) hi
  simp only [shown, setExcCode, setCe, setBd, setBt]
  rw [hbit _ 30 (by decide), hbit _ 31 (by decide), hce, hcode]
  by_cases h30 : i = 30
  · simp [h30]
  by_cases h31 : i = 31
  · simp [h31]
  by_cases h28 : 28 ≤ i
  · have hlt : i < 30 := by omega
    simp [Ne.symm h30, Ne.symm h31, h30, h31, h28, hlt]
  · simp [Ne.symm h30, Ne.symm h31, h30, h31, h28]

theorem bd_shown : (c.shown e inSlot taken).bd = inSlot := bit_shown (by decide)

theorem bt_shown : (c.shown e inSlot taken).bt = (inSlot && taken) := bit_shown (by decide)

theorem excCode_shown (he : e.Proper) : (c.shown e inSlot taken).excCode = e.code := by
  refine Word.field_eq (by decide) (by decide) he.code fun i hi => ?_
  rw [bit_shown (by omega)]
  have h30 : 2 + i ≠ 30 := by omega
  have h31 : 2 + i ≠ 31 := by omega
  have h28 : ¬28 ≤ 2 + i := by omega
  have h7 : 2 + i < 7 := by omega
  simp [h30, h31, h28, h7]

theorem ce_shown (he : e.Proper) : (c.shown e inSlot taken).ce = e.cop := by
  refine Word.field_eq (by decide) (by decide) he.cop fun i hi => ?_
  rw [bit_shown (by omega)]
  have h30 : 28 + i ≠ 30 := by omega
  have h31 : 28 + i ≠ 31 := by omega
  simp [h30, h31]

end Cause

/-- Breakpoint traps have handlers of their own, and every handler has an address in ROM and one in RAM. -/
theorem Exception.Proper.vector {e : Exception} (he : e.Proper) (bev : Bool) : e.handler.address bev =
    if e = .debug then if bev then 0xbfc00140 else 0x80000040
    else if bev then 0xbfc00180 else 0x80000080 := by
  cases hhandler : e.handler with
  | general =>
    have hne : e ≠ .debug := fun h => by simp [h, debug] at hhandler
    rw [if_neg hne]
    cases bev <;> rfl
  | debug =>
    rw [if_pos (he.handler hhandler)]
    cases bev <;> rfl

namespace Cop0
variable {c d : Cop0} {line : Bool} {e : Exception}

/-- What the system control registers `d` show of an exception, and keep of the state `c` before. -/
structure Entered (c d : Cop0) (line : Bool) (e : Exception) : Prop where
  /-- The two current bits of the mode stack are clear, and the others have moved up. -/
  status : ∀ i < 32, Word.bit d.status.word i =
    if i < 2 then false else if i < 6 then Word.bit c.status.word (i - 2) else Word.bit c.status.word i
  excCode : d.cause.excCode = e.code
  ce : d.cause.ce = e.cop
  ip2 : d.cause.ip2 = line
  cause : ∀ i < 28, ¬(2 ≤ i ∧ i < 7) → i ≠ 10 → Word.bit d.cause.word i = Word.bit c.cause.word i
  address : e.code = 4 ∨ e.code = 5 → e.badVaddr = some d.badVaddr
  badVaddr : ¬(e.code = 4 ∨ e.code = 5) → d.badVaddr = c.badVaddr
  dcic : ∀ i, 6 ≤ i → i < 32 → Word.bit d.dcic.word i = Word.bit c.dcic.word i
  bpc : d.bpc = c.bpc
  bda : d.bda = c.bda
  bdam : d.bdam = c.bdam
  bpcm : d.bpcm = c.bpcm
  prid : d.prid = c.prid

theorem entered (h : (c.sample line).Marked d) (he : e.Proper) (pc next : UInt32)
    (inSlot taken : Bool) : Entered c (d.enter e pc next inSlot taken) line e := by
  have hsame := h.same
  have hcause : (d.enter e pc next inSlot taken).cause =
      (c.cause.setIp2 line).shown e inSlot taken := by
    rw [hsame]
    rfl
  have hip : ∀ {i}, i < 32 → Word.bit (c.cause.setIp2 line).word i =
      if 10 = i then line else Word.bit c.cause.word i := fun hi =>
    Word.bit_setBit _ (by decide) hi line
  have hbad : (d.enter e pc next inSlot taken).badVaddr = e.badVaddr.getD c.badVaddr := by
    rw [hsame]
    rfl
  refine ⟨fun i hi => ?_, ?_, ?_, ?_, fun i hi hcode hip2 => ?_, fun hx => ?_, fun hx => ?_, h.dcic,
    ?_, ?_, ?_, ?_, ?_⟩
  · have hpush : (d.enter e pc next inSlot taken).status = c.status.push := by
      rw [hsame]
      rfl
    rw [hpush, Status.bit_push _ hi]
  · rw [hcause, Cause.excCode_shown he]
  · rw [hcause, Cause.ce_shown he]
  · rw [hcause]
    exact (Cause.bit_shown (i := 10) (by decide)).trans (hip (by decide))
  · have h30 : i ≠ 30 := by omega
    have h31 : i ≠ 31 := by omega
    have h28 : ¬28 ≤ i := by omega
    rw [hcause, Cause.bit_shown (by omega), hip (by omega)]
    simp [h30, h31, h28, hcode, Ne.symm hip2]
  · obtain ⟨addr, haddr⟩ := Option.isSome_iff_exists.mp (he.badVaddr.mpr hx)
    rw [hbad, haddr]
    rfl
  · rw [hbad, Option.not_isSome_iff_eq_none.mp fun hs => hx (he.badVaddr.mp hs)]
    rfl
  all_goals rw [hsame]; rfl

end Cop0

namespace Machine
variable {γ δ : Type} {m t u : Machine γ δ} {e : Exception} {s : Nat → Machine γ δ} {k : Nat}

theorem kept_obtained {r : Except Exception UInt32}
    (h : (obtain m.cpu.regs.pc m.opened).value = (r, t)) :
    m.opened.cpu.regs.cop0.Marked t.cpu.regs.cop0 ∧
      (m.userMode → t.cpu.caches.biu = m.cpu.caches.biu) :=
  (Restrained.obtain _).kept h

theorem kept_performed {word : UInt32} {i : Instruction} {r : Except Exception Effect}
    (ho : (obtain m.cpu.regs.pc m.opened).value = (.ok word, t))
    (hx : Restrained behindKuseg (perform m.operands m.cpu.regs.pc i) t)
    (h : (perform m.operands m.cpu.regs.pc i t).value = (r, u)) :
    m.opened.cpu.regs.cop0.Marked u.cpu.regs.cop0 ∧
      (m.userMode → u.cpu.caches.biu = m.cpu.caches.biu) := by
  obtain ⟨hmarked, hbiu⟩ := kept_obtained ho
  obtain ⟨hmarked', hbiu'⟩ := hx.kept h
  refine ⟨hmarked.trans hmarked', fun hm => (hbiu' ?_).trans (hbiu hm)⟩
  exact ((Restrained.obtain _).userMode ho).trans hm

/-- Up to where it retires, a step that raises an exception has left everything as it was that goes into
the entry of that exception. -/
structure Undone (m t : Machine γ δ) (e : Exception) : Prop where
  front : t.front = m.opened.front
  cop0 : m.opened.cpu.regs.cop0.Marked t.cpu.regs.cop0
  proper : e.Proper

namespace Undone

theorem of_obtained (h : (obtain m.cpu.regs.pc m.opened).value = (.error e, t)) : Undone m t e :=
  ⟨front_obtained h, (kept_obtained h).1, ((Restrained.obtain _).raises e t h).toProper⟩

theorem of_performed {word : UInt32} {i : Instruction}
    (ho : (obtain m.cpu.regs.pc m.opened).value = (.ok word, t))
    (h : (perform m.operands m.cpu.regs.pc i t).value = (.error e, u)) : Undone m u e := by
  have hx := Restrained.perform h
  exact ⟨(front_performed h).trans (front_obtained ho), (kept_performed ho hx h).1, (hx.raises e u h).toProper⟩

end Undone

theorem Course.undone {a : Attempt} {c : Option Instruction} (h : Course m a c t)
    (he : a.exception = some e) : a.pc = m.cpu.regs.pc ∧ Undone m t e := by
  cases h with
  | interrupted hi =>
    cases he
    exact ⟨rfl, rfl, .refl _, .interrupt⟩
  | refused hi ho =>
    cases he
    exact ⟨rfl, .of_obtained ho⟩
  | skipped hi ho hd => cases he
  | faulted hi ho hd hp =>
    cases he
    exact ⟨rfl, .of_performed ho hp⟩
  | completed hi ho hd hp => cases he

/-- A step that completes an instruction takes no exception. -/
theorem Course.undisturbed {a : Attempt} {i : Instruction} (h : Course m a (some i) t) :
    a.exception = none := by
  cases h
  rfl

theorem undisturbed_of_completed {i : Instruction} (h : m.completed? = some i) : m.Undisturbed :=
  (h ▸ m.course).undisturbed

theorem bev_push (s : Status) : s.push.bev = s.bev := s.bit_push (by decide)

structure Entry (m n : Machine γ δ) (e : Exception) : Prop where
  cop0 : ∃ c, (m.cpu.regs.cop0.sample m.bus.int.line).Marked c ∧ e.Proper ∧
    n.cpu.regs.cop0 = c.enter e m.cpu.regs.pc
      (m.cpu.slots.branch.target?.getD (m.cpu.regs.pc + 4)) (m.cpu.slots.branch ≠ .none)
      m.cpu.slots.branch.target?.isSome
  pc : n.cpu.regs.pc = e.handler.address m.cpu.regs.cop0.status.bev
  branch : n.cpu.slots.branch = .none

theorem conclude_entry (pc : UInt32) (executed : Bool) (e : Exception) (t : Machine γ δ) :
    (conclude ⟨pc, executed, some e⟩ t).value.2.cpu.regs.cop0 =
        t.cpu.regs.cop0.enter e pc t.cpu.regs.pc t.cpu.slots.inSlot t.cpu.slots.taken ∧
      (conclude ⟨pc, executed, some e⟩ t).value.2.cpu.regs.pc =
        e.handler.address t.cpu.regs.cop0.status.push.bev := by
  have hland := DelaySlots.land_frame t.cpu.slots.load t.cpu.regs
  have hcop0 := congrArg RegisterFile.cop0 hland
  have hpc := congrArg RegisterFile.pc hland
  constructor
  · have h : (conclude ⟨pc, executed, some e⟩ t).value.2.cpu.regs.cop0 =
        (DelaySlots.land t.cpu.slots.load t.cpu.regs).value.cop0.enter e pc
          (DelaySlots.land t.cpu.slots.load t.cpu.regs).value.pc t.cpu.slots.inSlot
          t.cpu.slots.taken := by cases executed <;> rfl
    rw [h, hcop0, hpc]
  · have h : (conclude ⟨pc, executed, some e⟩ t).value.2.cpu.regs.pc = e.handler.address
        (DelaySlots.land t.cpu.slots.load t.cpu.regs).value.cop0.status.push.bev := by
      cases executed <;> rfl
    rw [h, hcop0]

theorem Raises.entry (h : m.Raises e) : Entry m (step m).value.2 e := by
  have hcourse := m.course
  simp only [Raises] at h
  rw [step_value]
  generalize (attempt m).value = p at *
  obtain ⟨⟨pc, executed, exception⟩, t⟩ := p
  cases h
  obtain ⟨hpc, hundone⟩ := hcourse.undone rfl
  obtain ⟨hcop0, hvector⟩ := conclude_entry pc executed e t
  have hslots : t.cpu.slots = m.cpu.slots.enter := congrArg Front.slots hundone.front
  have hnext : t.cpu.regs.pc = m.cpu.slots.branch.target?.getD (m.cpu.regs.pc + 4) :=
    congrArg Front.pc hundone.front
  refine ⟨⟨_, hundone.cop0, hundone.proper, ?_⟩, ?_, conclude_raised ..⟩
  · rw [hcop0, hslots, hnext, show pc = _ from hpc]
    rfl
  · rw [hvector, bev_push, hundone.cop0.status]
    rfl

/-- A decision comes from a branch that has been completed, whether it was taken or not. -/
theorem decision_ne_none : m.decision ≠ .none ↔ ∃ i, m.completed? = some i ∧ i.branches := by
  unfold decision
  cases m.completed? with
  | none => simp
  | some i => simpa using i.decision_ne_none _ _

theorem decidedBefore_ne_none :
    decidedBefore s k ≠ .none ↔ ∃ j i, k = j + 1 ∧ (s j).completed? = some i ∧ i.branches := by
  cases k with
  | zero => simp [decidedBefore]
  | succ k => simp [decidedBefore, decision_ne_none]

/-- In step `k` of a run the exception `e` is taken, and the registers show where execution is to be
resumed: at the instruction that has not been executed or, if that one comes after a branch, there. -/
structure EntersAt (s : Nat → Machine γ δ) (k : Nat) (e : Exception) : Prop where
  bd : (s (k + 1)).cpu.regs.cop0.cause.bd ↔
    ∃ j i, k = j + 1 ∧ (s j).completed? = some i ∧ i.branches
  epc : (s (k + 1)).cpu.regs.cop0.cause.bd = false →
    (s (k + 1)).cpu.regs.cop0.epc = (s k).cpu.regs.pc
  /-- Of a branch that does not come after a taken one itself. -/
  epcOfBranch : (s (k + 1)).cpu.regs.cop0.cause.bd → ∀ j, k = j + 1 →
    (decidedBefore s j).target? = none → (s (k + 1)).cpu.regs.cop0.epc = (s j).cpu.regs.pc
  bt : (s (k + 1)).cpu.regs.cop0.cause.bt ↔
    (s (k + 1)).cpu.regs.cop0.cause.bd ∧ ∃ target, decidedBefore s k = .pending target
  tar : ∀ target, decidedBefore s k = .pending target →
    (s (k + 1)).cpu.regs.cop0.tar = target
  tarKept : (s (k + 1)).cpu.regs.cop0.cause.bt = false →
    (s (k + 1)).cpu.regs.cop0.tar = (s k).cpu.regs.cop0.tar
  rest : (s k).cpu.regs.cop0.Entered (s (k + 1)).cpu.regs.cop0 (s k).bus.int.line e
  /-- A trap of a hardware breakpoint has vectors of its own. -/
  pc : (s (k + 1)).cpu.regs.pc =
    if e = .debug then if (s k).cpu.regs.cop0.status.bev then 0xbfc00140 else 0x80000040
    else if (s k).cpu.regs.cop0.status.bev then 0xbfc00180 else 0x80000080
  branch : (s (k + 1)).cpu.slots.branch = .none

/-- Where a run starts without a branch under way, as it does after a reset, every exception shows where
execution is to be resumed. -/
theorem Successive.exception_entry (hs : Successive s) (hb : (s 0).cpu.slots.branch = .none)
    (he : (s k).Raises e) : EntersAt s k e := by
  obtain ⟨⟨c, hmarked, hproper, hcop0⟩, hpc, hbranch⟩ := he.entry
  rw [← hs k] at hcop0 hpc hbranch
  -- the slot that the registers show is that of the decision of the step before
  rw [hs.branch hb k] at hcop0
  have hbd : (s (k + 1)).cpu.regs.cop0.cause.bd = decide (decidedBefore s k ≠ .none) := by
    rw [hcop0]
    exact Cause.bd_shown
  have hbt : (s (k + 1)).cpu.regs.cop0.cause.bt =
      (decide (decidedBefore s k ≠ .none) && (decidedBefore s k).target?.isSome) := by
    rw [hcop0]
    exact Cause.bt_shown
  refine ⟨?_, fun h => ?_, fun h j hj hslot => ?_, ?_, fun target h => ?_, fun h => ?_, ?_,
    hpc.trans (hproper.vector _), hbranch⟩
  · rw [hbd, decide_eq_true_iff, decidedBefore_ne_none]
  · rw [hcop0]
    rw [hbd] at h
    simp [Cop0.enter, h]
  · subst hj
    -- the branch took no exception, and what follows it in no slot is the next word
    rw [hbd, decide_eq_true_iff] at h
    obtain ⟨i, hi, -⟩ := decision_ne_none.mp h
    have hnext := (undisturbed_of_completed hi).pc
    rw [← hs j, hs.branch hb j, hslot] at hnext
    rw [hcop0]
    simp [Cop0.enter, h, hnext]
  · rw [hbt, hbd]
    cases decidedBefore s k <;> simp [BranchDelay.target?]
  · rw [hcop0, h]
    simp [Cop0.enter, BranchDelay.target?]
  · rw [hbt] at h
    rw [hcop0, hmarked.same]
    simp only [Cop0.enter]
    rw [h]
    rfl
  · rw [hcop0]
    exact Cop0.entered hmarked hproper ..

/-- After a reset, a load from a misaligned address in the delay slot of a branch. -/
def tripping : Machine Gte.Registers Unit :=
  (booting [0x10000003, 0x8c080001, 0, 0, 0] (by decide)).cold

set_option maxRecDepth 10000 in
theorem exception_entry_tripping : Successive tripping.after ∧ tripping.cpu.slots.branch = .none ∧
    (tripping.after 1).Raises (.addressLoad 1) ∧
    (tripping.after 2).cpu.regs.cop0.cause.bt = true ∧
    (tripping.after 2).cpu.regs.cop0.epc = 0xbfc00000 ∧
    (tripping.after 2).cpu.regs.cop0.tar = 0xbfc00010 ∧
    (tripping.after 1).cpu.regs.cop0.status.bev = true ∧ (tripping.after 2).cpu.regs.pc = 0xbfc00180 := by
  have hs := successive_after tripping
  have he : (tripping.after 1).Raises (.addressLoad 1) := by
    simp only [Raises]
    decide +kernel
  have h := hs.exception_entry rfl he
  have hdecided : decidedBefore tripping.after 1 = .pending 0xbfc00010 := by decide +kernel
  have hbd := h.bd.mpr (decidedBefore_ne_none.mp (by simp [hdecided]))
  have hbev : (tripping.after 1).cpu.regs.cop0.status.bev = true := by decide +kernel
  have hpc : (tripping.after 2).cpu.regs.pc = 0xbfc00180 := by
    rw [h.pc, hbev]
    rfl
  exact ⟨hs, rfl, he, h.bt.mpr ⟨hbd, _, hdecided⟩, h.epcOfBranch hbd 0 rfl rfl, h.tar _ hdecided,
    hbev, hpc⟩

end Machine
end R3000
