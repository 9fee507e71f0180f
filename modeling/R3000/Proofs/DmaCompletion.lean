import R3000.Proofs.DmaTransfers
import R3000.Proofs.Reachability

/-! # Completion of DMA transfers

From its start on a transfer is in flight for as many cycles as its words take, whatever is written to
the registers meanwhile. The update that brings the last of them reports it complete, and nothing
happens to its channel after that before it is started again. -/
namespace R3000

namespace Dma

namespace Dicr
variable {d : Dicr}

theorem bit_report (d : Dicr) (i : Fin 7) (due : Bool) {k : Nat} (hk : k < 31) :
    Word.bit (d.report i due).word k =
      (Word.bit d.word k || (due && (decide (24 + i.val = k) && Word.bit d.word (16 + i)))) := by
  cases due with
  | false => rw [Bool.false_and, Bool.or_false]; rfl
  | true =>
    have hbit := Word.bit_setBit (d.complete i).word (show 31 < 32 by decide) (show k < 32 by omega)
      (d.complete i).level
    rw [if_neg (by omega), bit_complete d i (by omega)] at hbit
    rw [Bool.true_and, ← hbit]
    rfl

/-- The enable of a channel is not touched by reports. -/
theorem enable_report (d : Dicr) (i n : Fin 7) (due : Bool) :
    Word.bit (d.report i due).word (16 + n) = Word.bit d.word (16 + n) := by
  have hne : 24 + i.val ≠ 16 + n.val := by omega
  rw [bit_report d i due (by omega)]
  simp [hne]

end Dicr

namespace Channel
variable {ch : Channel}

theorem busy_finished (ch : Channel) : ch.finished.chcr.busy = false := by
  have hbusy := Word.bit_setBit ch.chcr.word (show 24 < 32 by decide) (show 24 < 32 by decide) false
  have htrigger := Word.bit_setBit (Word.setBit ch.chcr.word 24 false) (show 28 < 32 by decide)
    (show 24 < 32 by decide) false
  exact htrigger.trans ((if_neg (by decide)).trans (hbusy.trans (if_pos rfl)))

theorem trigger_finished (ch : Channel) : ch.finished.chcr.trigger = false :=
  (Word.bit_setBit _ (by decide) (by decide) false).trans (if_pos rfl)

end Channel

namespace Controller
variable {δ : Type} {ctl : Controller δ} {n : Fin 7} {l : List (Fin 7)} {cycles : UInt32}

/-- What time on some channels makes of channel `n`, where `passes` says that it is one of them. -/
structure Past (cycles : UInt32) (n : Fin 7) (passes : Bool) (c d : Controller δ) : Prop where
  channel : d.channel n = if passes then (c.channel n).later cycles else c.channel n
  enable : Word.bit d.dicr.word (16 + n) = Word.bit c.dicr.word (16 + n)
  flag : Word.bit d.dicr.word (24 + n) = (Word.bit c.dicr.word (24 + n) ||
    (passes && (c.channel n).due cycles && Word.bit c.dicr.word (16 + n)))

theorem past_pass (cycles : UInt32) (ctl : Controller δ) (n i : Fin 7) :
    Past cycles n (n = i) ctl (ctl.pass cycles i) := by
  refine ⟨?_, Dicr.enable_report _ _ _ _, ?_⟩
  · by_cases h : n = i
    · subst h
      simp [channel_pass_self]
    · simp [h, channel_pass_of_ne (Ne.symm h)]
  · show Word.bit (ctl.dicr.report i _).word (24 + n) = _
    rw [Dicr.bit_report _ _ _ (by omega)]
    by_cases h : n = i
    · subst h
      simp
    · have hne : i.val ≠ n.val := fun hv => h (Fin.ext hv.symm)
      simp [h, hne]

theorem Past.trans {c d e : Controller δ} {x y : Bool} (h : Past cycles n x c d)
    (k : Past cycles n y d e) (hxy : (x && y) = false) : Past cycles n (x || y) c e := by
  have hchannel := h.channel
  have hflag := h.flag
  refine ⟨?_, k.enable.trans h.enable, ?_⟩
  · rw [k.channel, hchannel]
    revert hxy
    cases x <;> cases y <;> simp
  · rw [k.flag, hflag, h.enable, hchannel]
    revert hxy
    cases x <;> cases y <;> simp

theorem past_foldl (cycles : UInt32) (n : Fin 7) (hl : l.Nodup) (ctl : Controller δ) :
    Past cycles n (l.contains n) ctl (l.foldl (pass cycles) ctl) := by
  induction l generalizing ctl with
  | nil => exact ⟨by simp, rfl, by simp⟩
  | cons i l ih =>
    obtain ⟨hi, hl⟩ := List.nodup_cons.mp hl
    have h := (past_pass cycles ctl n i).trans (ih hl (ctl.pass cycles i)) ?_
    · rw [List.contains_cons]
      exact h
    · by_cases hn : n = i
      · subst hn
        simp [hi]
      · simp [hn]

theorem past_later (cycles : UInt32) (n : Fin 7) (ctl : Controller δ) :
    Past cycles n true ctl (ctl.later cycles) := by
  have h := past_foldl cycles n (List.nodup_finRange 7) ctl
  rwa [List.contains_iff_mem.mpr (List.mem_finRange n)] at h

end Controller

inductive Operation
  | update (cycles : UInt32)
  | write (offset value : UInt32)
deriving DecidableEq

namespace Operation
variable {δ : Type}

def run : Operation → Bus.Op δ Unit
  | update cycles => Bus.dmaUpdate cycles
  | write offset value => Bus.dmaWrite offset value

@[simp] theorem run_update (cycles : UInt32) :
    (run (update cycles) : Bus.Op δ Unit) = Bus.dmaUpdate cycles := rfl
@[simp] theorem run_write (offset value : UInt32) :
    (run (write offset value) : Bus.Op δ Unit) = Bus.dmaWrite offset value := rfl

def cycles : Operation → UInt32
  | update cycles => cycles
  | write _ _ => 0

@[simp] theorem cycles_update (cycles : UInt32) : (update cycles).cycles = cycles := rfl
@[simp] theorem cycles_write (offset value : UInt32) : (write offset value).cycles = 0 := rfl

def starts : Operation → Bus δ → List (Fin 7 × UInt32)
  | update _, _ => []
  | write offset value, b => Bus.started (Bus.tries offset) (Bus.stored offset value b)

@[simp] theorem starts_write (offset value : UInt32) (b : Bus δ) :
    (write offset value).starts b = Bus.started (Bus.tries offset) (Bus.stored offset value b) := rfl

end Operation
end Dma

namespace Bus
variable {δ : Type} {b t : Bus δ} {n : Fin 7}

/-- Time on the controller, whether or not its master flag shows its level. -/
theorem dmaUpdate_later (cycles : UInt32) (b : Bus δ) :
    (dmaUpdate cycles b).record.acts = [] ∧
      (dmaUpdate cycles b).value.2.dma = b.dma.later cycles := by
  simp only [dmaUpdate, Dma.Controller.later]
  generalize channels = l
  induction l generalizing b with
  | nil => exact ⟨rfl, rfl⟩
  | cons i l ih =>
    have h := (updateChannel_leads b cycles i).then_eq (l.forM (updateChannel cycles))
    have hrest := ih (b.withDma (b.dma.pass cycles i))
    rw [List.forM, List.foldl_cons]
    exact ⟨h.1.trans hrest.1, (congrArg (·.2.dma) h.2).trans hrest.2⟩

/-- What an operation does with channel `n` while its transfer is in flight for `r` cycles more. -/
structure Underway (n : Fin 7) (r : UInt32) (op : Dma.Operation) (b : Bus δ) : Prop where
  spares : (op.run b).record.Spares n
  starts : ∀ w, (n, w) ∉ op.starts b
  counts : op.cycles < r →
    ((op.run b).value.2.dma.channel n).countdown = some (r - op.cycles)

structure Completed (n : Fin 7) (b t : Bus δ) : Prop where
  countdown : (t.dma.channel n).countdown = none
  busy : (t.dma.channel n).chcr.busy = false
  trigger : (t.dma.channel n).chcr.trigger = false
  flag : Word.bit t.dma.dicr.word (24 + n) =
    (Word.bit b.dma.dicr.word (24 + n) || Word.bit b.dma.dicr.word (16 + n))

/-- Completion shows in the registers of the controller alone. -/
theorem Completed.congr {u : Bus δ} (h : Completed n b t) (hu : u.dma = t.dma) : Completed n b u := by
  refine ⟨?_, ?_, ?_, ?_⟩ <;> rw [hu]
  · exact h.countdown
  · exact h.busy
  · exact h.trigger
  · exact h.flag

theorem underway {r : UInt32} (h : (b.dma.channel n).countdown = some r) (op : Dma.Operation) :
    Underway n r op b := by
  cases op with
  | update cycles =>
    obtain ⟨hacts, hdma⟩ := dmaUpdate_later cycles b
    rw [← Dma.Operation.run_update] at hacts hdma
    refine ⟨.of_acts hacts, fun _ => List.not_mem_nil, fun hlt => ?_⟩
    rw [Dma.Operation.cycles_update] at hlt
    rw [hdma, (Dma.Controller.past_later cycles n b.dma).channel, if_pos rfl,
      Dma.Channel.later_of_lt h hlt, Dma.Operation.cycles_update]
  | write offset value =>
    have hstored := (countdown_stored n offset value b).trans h
    have htried := tried n (tries offset) (stored offset value b)
    obtain ⟨hacts, hstate⟩ := dmaWrite_stored offset value b
    obtain ⟨hsame, hspares, hnone⟩ := htried.passed (inFlight_of_countdown hstored)
    rw [← Dma.Operation.run_write] at hacts hstate
    rw [← Dma.Operation.starts_write] at hnone
    refine ⟨.congr hacts hspares, hnone, fun _ => ?_⟩
    rw [hstate, hsame, hstored, Dma.Operation.cycles_write, UInt32.sub_zero]

theorem completed {r cycles : UInt32} (h : (b.dma.channel n).countdown = some r) (hr : r ≤ cycles) :
    Completed n b (dmaUpdate cycles b).value.2 := by
  have hpast := Dma.Controller.past_later cycles n b.dma
  have hfinished := Dma.Channel.later_of_not_lt h (UInt32.not_lt.mpr hr)
  have hdue : (b.dma.channel n).due cycles = true := by
    simp only [Dma.Channel.due]
    rw [h, Option.any_some, decide_eq_true hr]
  have hchannel := hpast.channel
  have hflag := hpast.flag
  rw [if_pos rfl, hfinished] at hchannel
  rw [hdue, Bool.and_true, Bool.true_and] at hflag
  obtain ⟨-, hdma⟩ := dmaUpdate_later cycles b
  rw [← hdma] at hchannel hflag
  refine ⟨?_, ?_, ?_, hflag⟩
  · rw [hchannel]
    rfl
  · rw [hchannel, Dma.Channel.busy_finished]
  · rw [hchannel, Dma.Channel.trigger_finished]

/-- An operation that does not start channel `n` leaves it idle, and time does not touch it. -/
theorem idle (h : (b.dma.channel n).countdown = none) {op : Dma.Operation}
    (hs : ∀ w, (n, w) ∉ op.starts b) : ((op.run b).value.2.dma.channel n).countdown = none := by
  cases op with
  | update cycles =>
    rw [Dma.Operation.run_update, (dmaUpdate_later cycles b).2,
      (Dma.Controller.past_later cycles n b.dma).channel, if_pos rfl, Dma.Channel.later_none h, h]
  | write offset value =>
    have htried := tried n (tries offset) (stored offset value b)
    rw [Dma.Operation.starts_write] at hs
    rw [Dma.Operation.run_write, (dmaWrite_stored offset value b).2, htried.kept hs, countdown_stored, h]

theorem idle_update (h : (b.dma.channel n).countdown = none) (cycles : UInt32) :
    (dmaUpdate cycles b).value.2.dma.channel n = b.dma.channel n ∧
      Word.bit (dmaUpdate cycles b).value.2.dma.dicr.word (24 + n) =
        Word.bit b.dma.dicr.word (24 + n) := by
  have hpast := Dma.Controller.past_later cycles n b.dma
  have hdue : (b.dma.channel n).due cycles = false := by
    simp only [Dma.Channel.due]
    rw [h]
    rfl
  rw [(dmaUpdate_later cycles b).2, hpast.channel, if_pos rfl, Dma.Channel.later_none h, hpast.flag,
    hdue, Bool.and_false, Bool.false_and, Bool.or_false]
  exact ⟨rfl, rfl⟩

def passed (op : Nat → Dma.Operation) (k : Nat) : Nat → Nat
  | 0 => 0
  | j + 1 => passed op k j + (op (k + j)).cycles.toNat

/-- One operation on the DMA controller after the other. In between anything may happen that leaves its
registers alone. -/
def Operated (s : Nat → Bus δ) (op : Nat → Dma.Operation) : Prop :=
  ∀ k, (s (k + 1)).dma = ((op k).run (s k)).value.2.dma

/-- No operation from the one with number `k` to before the one with number `k + j` starts channel `n`. -/
def Unstarted (s : Nat → Bus δ) (op : Nat → Dma.Operation) (n : Fin 7) (k j : Nat) : Prop :=
  ∀ i < j, ∀ w, (n, w) ∉ (op (k + i)).starts (s (k + i))

/-- The transfer that is in flight on channel `n` before operation `k` takes `d` cycles more: it stays in
flight until they have passed and is alone on its channel by then, the update that brings the last of
them completes it, and it does not complete again. -/
structure Punctual (s : Nat → Bus δ) (op : Nat → Dma.Operation) (n : Fin 7) (k d : Nat) : Prop where
  inFlight : ∀ j, passed op k j < d →
    ∃ r, ((s (k + j)).dma.channel n).countdown = some r ∧ passed op k j + r.toNat = d
  alone : ∀ j, passed op k j < d → ((op (k + j)).run (s (k + j))).record.Spares n ∧
    ∀ w, (n, w) ∉ (op (k + j)).starts (s (k + j))
  completed : ∀ j, passed op k j < d → d ≤ passed op k (j + 1) →
    Completed n (s (k + j)) (s (k + j + 1))
  idle : ∀ j, d ≤ passed op k j → Unstarted s op n k j → ((s (k + j)).dma.channel n).countdown = none
  untouched : ∀ j cycles, d ≤ passed op k j → Unstarted s op n k j → op (k + j) = .update cycles →
    (s (k + j + 1)).dma.channel n = (s (k + j)).dma.channel n ∧
      Word.bit (s (k + j + 1)).dma.dicr.word (24 + n) = Word.bit (s (k + j)).dma.dicr.word (24 + n)

theorem toNat_max_one (w : UInt32) : (max w 1).toNat = max w.toNat 1 := by
  show (if w ≤ 1 then 1 else w : UInt32).toNat = _
  have hle : w ≤ 1 ↔ w.toNat ≤ 1 := UInt32.le_iff_toNat_le
  split
  · exact (Nat.max_eq_right (hle.mp ‹_›)).symm
  · exact (Nat.max_eq_left (Nat.le_of_not_le (mt hle.mpr ‹_›))).symm

theorem toNat_duration (w c : UInt32) :
    (duration w c).toNat = min (max w.toNat 1 * max c.toNat 1) 0xffffffff := by
  simp only [duration, Word.satMul]
  rw [← toNat_max_one, ← toNat_max_one]
  split
  · rename_i h
    rw [UInt32.toNat_mul, Nat.mod_eq_of_lt h, Nat.min_eq_left (Nat.le_of_lt_succ h)]
  · rename_i h
    rw [Nat.min_eq_right (by omega)]
    rfl

theorem duration_pos (w c : UInt32) : 0 < (duration w c).toNat := by
  have hw : 0 < max w.toNat 1 := by omega
  have hc : 0 < max c.toNat 1 := by omega
  have hmul := Nat.mul_pos hw hc
  rw [toNat_duration]
  omega

variable {s : Nat → Bus δ} {op : Nat → Dma.Operation} {k d : Nat}

theorem Operated.inFlight (hs : Operated s op) {r : UInt32}
    (h : ((s k).dma.channel n).countdown = some r) (j : Nat) (hj : passed op k j < r.toNat) :
    ∃ q, ((s (k + j)).dma.channel n).countdown = some q ∧ passed op k j + q.toNat = r.toNat := by
  induction j with
  | zero => exact ⟨r, h, Nat.zero_add _⟩
  | succ j ih =>
    simp only [passed] at hj ⊢
    obtain ⟨q, hq, hsum⟩ := ih (by omega)
    have hlt : (op (k + j)).cycles < q := UInt32.lt_iff_toNat_lt.mpr (by omega)
    have hcount := (underway hq (op (k + j))).counts hlt
    refine ⟨q - (op (k + j)).cycles, ?_, ?_⟩
    · rw [← hcount, ← hs (k + j)]
      rfl
    · rw [UInt32.toNat_sub_of_le _ _ (UInt32.le_of_lt hlt)]
      omega

theorem Operated.completed (hs : Operated s op) {r : UInt32}
    (h : ((s k).dma.channel n).countdown = some r) (hr : 0 < r) (hc : r ≤ (op k).cycles) :
    Completed n (s k) (s (k + 1)) := by
  have hdma := hs k
  cases hop : op k with
  | update cycles =>
    rw [hop, Dma.Operation.cycles_update] at hc
    rw [hop, Dma.Operation.run_update] at hdma
    exact (Bus.completed h hc).congr hdma
  | write offset value =>
    rw [hop, Dma.Operation.cycles_write] at hc
    exact absurd hc (UInt32.not_le.mpr hr)

/-- What is in flight takes as long as its countdown says. -/
theorem Operated.punctual_of_countdown (hs : Operated s op) {r : UInt32}
    (h : ((s k).dma.channel n).countdown = some r) (hr : 0 < r.toNat) :
    Punctual s op n k r.toNat := by
  have hcompleted : ∀ j, passed op k j < r.toNat → r.toNat ≤ passed op k (j + 1) →
      Completed n (s (k + j)) (s (k + j + 1)) := by
    intro j hj hend
    obtain ⟨q, hq, hsum⟩ := hs.inFlight h j hj
    simp only [passed] at hend
    refine hs.completed hq (UInt32.lt_iff_toNat_lt.mpr ?_) (UInt32.le_iff_toNat_le.mpr ?_)
    · rw [UInt32.toNat_zero]
      omega
    · omega
  have hidle : ∀ j, r.toNat ≤ passed op k j → Unstarted s op n k j →
      ((s (k + j)).dma.channel n).countdown = none := by
    intro j hj hn
    induction j with
    | zero => exact absurd hj (Nat.not_le.mpr hr)
    | succ j ih =>
      by_cases hbefore : r.toNat ≤ passed op k j
      · have hnone := ih hbefore fun i hi => hn i (Nat.lt_succ_of_lt hi)
        rw [← Nat.add_assoc, hs (k + j)]
        exact Bus.idle hnone (hn j (Nat.lt_succ_self j))
      · exact (hcompleted j (Nat.not_le.mp hbefore) hj).countdown
  refine ⟨hs.inFlight h, fun j hj => ?_, hcompleted, hidle, fun j cycles hj hn hop => ?_⟩
  · obtain ⟨q, hq, -⟩ := hs.inFlight h j hj
    have hunder := underway hq (op (k + j))
    exact ⟨hunder.spares, hunder.starts⟩
  · have hdma := hs (k + j)
    rw [hop, Dma.Operation.run_update] at hdma
    rw [hdma]
    exact idle_update (hidle j hj hn) cycles

def operated (b : Bus δ) (op : Nat → Dma.Operation) : Nat → Bus δ
  | 0 => b
  | k + 1 => ((op k).run (operated b op k)).value.2

theorem operated_operated (b : Bus δ) (op : Nat → Dma.Operation) : Operated (operated b op) op :=
  fun _ => rfl

/-- Enables channel 2 and its interrupt, starts a burst of three words, and rewrites its registers while
it is in flight. -/
def bursting : Nat → Dma.Operation
  | 0 => .write 0x70 0x800
  | 1 => .write 0x74 0x840000
  | 2 => .write 0x24 3
  | 3 => .write 0x28 0x11000001
  | 4 => .update 2
  | 5 => .write 0x28 0x11000001
  | 6 => .update 1
  | _ => .update 5

end Bus
end R3000
