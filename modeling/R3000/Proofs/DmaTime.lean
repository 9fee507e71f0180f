import R3000.Bus.Transfer
import R3000.Proofs.InterruptOrder
import R3000.Proofs.WordBits

/-! # Time on the DMA controller, in one slice or in two

Channels count down on their own and share only the interrupt register. The flag of one channel and
that of another can be set in either order, and the master flag rises as soon as the first of them is
set; so the DMA source is raised once, in the slice of time that the flag rises in. -/
namespace R3000

namespace Dma

namespace Dicr
variable {d : Dicr}

def settle (d : Dicr) : Dicr := d.setMaster d.level

theorem bit_complete (d : Dicr) (i : Fin 7) {k : Nat} (hk : k < 32) :
    Word.bit (d.complete i).word k =
      (Word.bit d.word k || (decide (24 + i.val = k) && Word.bit d.word (16 + i))) := by
  simp only [complete]
  cases hi : Word.bit d.word (16 + i) with
  | true =>
    rw [if_pos rfl, Word.bit_setBit _ (by omega) hk]
    by_cases h : 24 + i.val = k <;> simp [h]
  | false => rw [if_neg nofun, Bool.and_false, Bool.or_false]

theorem eq_of_bit {d e : Dicr} (h : ∀ k < 32, Word.bit d.word k = Word.bit e.word k) : d = e := by
  obtain ⟨d⟩ := d
  obtain ⟨e⟩ := e
  rw [show d = e from Word.eq_of_bit h]

theorem complete_comm (d : Dicr) (i j : Fin 7) :
    (d.complete i).complete j = (d.complete j).complete i := by
  refine eq_of_bit fun k hk => ?_
  have hi := bit_complete d i (k := 16 + j) (by omega)
  have hj := bit_complete d j (k := 16 + i) (by omega)
  rw [decide_eq_false (by omega), Bool.false_and, Bool.or_false] at hi hj
  rw [bit_complete _ _ hk, bit_complete _ _ hk, bit_complete _ _ hk, bit_complete _ _ hk, hi, hj,
    Bool.or_assoc, Bool.or_assoc, Bool.or_comm (decide _ && _)]

theorem complete_setMaster (d : Dicr) (b : Bool) (i : Fin 7) :
    (d.setMaster b).complete i = (d.complete i).setMaster b := by
  refine eq_of_bit fun k hk => ?_
  simp only [setMaster]
  have hi : 31 ≠ 16 + i.val := by omega
  rw [bit_complete _ _ hk, Word.bit_setBit _ (by decide) hk, Word.bit_setBit _ (by decide) hk,
    Word.bit_setBit _ (by decide) (by omega), bit_complete _ _ hk, if_neg hi]
  split
  · rw [decide_eq_false (by omega), Bool.false_and, Bool.or_false]
  · rfl

theorem setMaster_setMaster (d : Dicr) (b c : Bool) : (d.setMaster b).setMaster c = d.setMaster c := by
  refine eq_of_bit fun k hk => ?_
  simp only [setMaster]
  rw [Word.bit_setBit _ (by decide) hk, Word.bit_setBit _ (by decide) hk,
    Word.bit_setBit _ (by decide) hk]
  split <;> rfl

theorem settle_complete_settle (d : Dicr) (i : Fin 7) :
    (d.settle.complete i).settle = (d.complete i).settle := by
  simp only [settle]
  rw [complete_setMaster, level_setMaster, setMaster_setMaster]

theorem master_complete (d : Dicr) (i : Fin 7) : (d.complete i).master = d.master := by
  simp only [master]
  rw [bit_complete _ _ (by decide), decide_eq_false (by omega), Bool.false_and, Bool.or_false]

theorem flags_complete (i : Fin 7) (h : d.flags ≠ 0) : (d.complete i).flags ≠ 0 := by
  intro h0
  refine h (Word.eq_of_bit fun k hk => ?_)
  have hbit := congrArg (Word.bit · k) h0
  unfold flags at *
  rw [Word.bit_and] at *
  rw [bit_complete _ _ hk] at hbit
  revert hbit
  cases Word.bit d.word k
  · exact fun _ => (Nat.zero_testBit k).symm
  · exact id

/-- A flag more does not take the level down. -/
theorem level_complete (i : Fin 7) (h : d.level) : (d.complete i).level := by
  unfold level at *
  rw [bit_complete _ _ (by decide), bit_complete _ _ (by decide), decide_eq_false (by omega),
    decide_eq_false (by omega), Bool.false_and, Bool.or_false, Bool.or_false]
  simp only [Bool.or_eq_true, Bool.and_eq_true, bne_iff_ne] at *
  exact h.imp_right fun h => ⟨h.1, flags_complete i h.2⟩

/-- The register after a channel has reported its transfer complete, if it has. -/
def report (d : Dicr) (i : Fin 7) (due : Bool) : Dicr := if due then (d.complete i).settle else d

theorem report_comm (d : Dicr) (i j : Fin 7) (x y : Bool) :
    (d.report i x).report j y = (d.report j y).report i x := by
  cases x <;> cases y
  · rfl
  · rfl
  · rfl
  · show ((d.complete i).settle.complete j).settle = ((d.complete j).settle.complete i).settle
    rw [settle_complete_settle, settle_complete_settle, complete_comm]

/-- How often the DMA source is raised between two settled states of the register. -/
def rises (d e : Dicr) : Nat := (e.master && !d.master).toNat

theorem rises_add {d e f : Dicr} (hde : d.master → e.master) (hef : e.master → f.master) :
    d.rises e + e.rises f = d.rises f := by
  simp only [rises]
  revert hde hef
  cases d.master <;> cases e.master <;> cases f.master <;> simp

theorem settled_report (h : d.Settled) (i : Fin 7) (due : Bool) : (d.report i due).Settled := by
  cases due
  · exact h
  · exact settled_setMaster _

theorem master_report (h : d.Settled) (i : Fin 7) (due : Bool) (hm : d.master) :
    (d.report i due).master := by
  cases due
  · exact hm
  · exact (master_setMaster _ _).trans (level_complete i (h.symm.trans hm))

end Dicr

namespace Channel

/-- The transfer under way is complete after these cycles. -/
def due (cycles : UInt32) (ch : Channel) : Bool := ch.countdown.any (· ≤ cycles)

def finished (ch : Channel) : Channel :=
  { ch with chcr := (ch.chcr.setBusy false).setTrigger false, countdown := none }

def later (cycles : UInt32) (ch : Channel) : Channel :=
  match ch.countdown with
  | none => ch
  | some r => if cycles < r then { ch with countdown := some (r - cycles) } else ch.finished

variable {a c r : UInt32} {ch : Channel}

theorem later_none (h : ch.countdown = none) (a : UInt32) : ch.later a = ch := by
  simp only [later]
  rw [h]

theorem later_of_lt (h : ch.countdown = some r) (ha : a < r) :
    ch.later a = { ch with countdown := some (r - a) } := by
  simp only [later]
  rw [h]
  exact if_pos ha

theorem later_of_not_lt (h : ch.countdown = some r) (ha : ¬a < r) : ch.later a = ch.finished := by
  simp only [later]
  rw [h]
  exact if_neg ha

/-- What is left of a countdown runs out when all of it does. -/
theorem lt_sub_iff (fits : a.toNat + c.toNat < 0x100000000) (h : a < r) :
    (c < r - a ↔ a + c < r) ∧ (a + c < r → r - a - c = r - (a + c)) := by
  have hle := UInt32.le_of_lt h
  have hsub := UInt32.toNat_sub_of_le _ _ hle
  have hsum := Word.toNat_add_of_fits fits
  have hiff : c < r - a ↔ a + c < r := by
    rw [UInt32.lt_iff_toNat_lt] at *
    rw [UInt32.lt_iff_toNat_lt, hsub, hsum]
    omega
  refine ⟨hiff, fun hlt => ?_⟩
  rw [← UInt32.toNat_inj, UInt32.toNat_sub_of_le _ _ (UInt32.le_of_lt (hiff.mpr hlt)),
    UInt32.toNat_sub_of_le _ _ (UInt32.le_of_lt hlt), hsub, hsum, Nat.sub_sub]

theorem not_lt_add (fits : a.toNat + c.toNat < 0x100000000) (h : ¬a < r) : ¬a + c < r := by
  rw [UInt32.lt_iff_toNat_lt] at *
  rw [Word.toNat_add_of_fits fits]
  omega

theorem later_later (fits : a.toNat + c.toNat < 0x100000000) (ch : Channel) :
    (ch.later a).later c = ch.later (a + c) := by
  cases hr : ch.countdown with
  | none => rw [later_none hr, later_none hr, later_none hr]
  | some r =>
    by_cases ha : a < r
    · obtain ⟨hlt, hsub⟩ := lt_sub_iff fits ha
      rw [later_of_lt hr ha]
      by_cases hc : a + c < r
      · rw [later_of_lt hr hc, later_of_lt rfl (hlt.mpr hc), hsub hc]
      · rw [later_of_not_lt hr hc, later_of_not_lt rfl (mt hlt.mp hc)]
        rfl
    · rw [later_of_not_lt hr ha, later_of_not_lt hr (not_lt_add fits ha), later_none rfl]

/-- A transfer that is complete after two slices of time is complete after the first, or in the
second; never in both. -/
theorem due_later (fits : a.toNat + c.toNat < 0x100000000) (ch : Channel) :
    ch.due (a + c) = (ch.due a || (ch.later a).due c) ∧ (ch.due a && (ch.later a).due c) = false := by
  simp only [due]
  cases hr : ch.countdown with
  | none =>
    rw [later_none hr, hr]
    exact ⟨rfl, rfl⟩
  | some r =>
    rw [Option.any_some, Option.any_some]
    by_cases ha : a < r
    · have hlt := (lt_sub_iff fits ha).1
      rw [later_of_lt hr ha, Option.any_some, decide_eq_false (UInt32.not_le.mpr ha), Bool.false_or,
        Bool.false_and, decide_eq_decide, ← UInt32.not_lt, ← UInt32.not_lt, hlt]
      exact ⟨Iff.rfl, rfl⟩
    · rw [later_of_not_lt hr ha, decide_eq_true (UInt32.not_lt.mp (not_lt_add fits ha)),
        decide_eq_true (UInt32.not_lt.mp ha)]
      exact ⟨rfl, rfl⟩

end Channel

namespace Controller
variable {δ : Type} {ctl : Controller δ} {a c : UInt32}

def pass (cycles : UInt32) (ctl : Controller δ) (i : Fin 7) : Controller δ :=
  { ctl.setChannel i ((ctl.channel i).later cycles) with
    dicr := ctl.dicr.report i ((ctl.channel i).due cycles) }

def later (cycles : UInt32) (ctl : Controller δ) : Controller δ := Bus.channels.foldl (pass cycles) ctl

theorem channel_pass_self (i : Fin 7) :
    (ctl.pass a i).channel i = (ctl.channel i).later a :=
  Vector.getElem_set_self i.isLt

theorem channel_pass_of_ne {i j : Fin 7} (h : i ≠ j) : (ctl.pass a i).channel j = ctl.channel j :=
  Vector.getElem_set_ne i.isLt j.isLt (Fin.val_ne_of_ne h)

/-- Time passes on two channels in either order. -/
theorem pass_comm {i j : Fin 7} (h : i ≠ j) :
    (ctl.pass a i).pass c j = (ctl.pass c j).pass a i := by
  have hset : (ctl.channels.set i ((ctl.channel i).later a)).set j ((ctl.channel j).later c) =
      (ctl.channels.set j ((ctl.channel j).later c)).set i ((ctl.channel i).later a) :=
    Vector.set_comm _ _ (Fin.val_ne_of_ne h)
  have hdicr := Dicr.report_comm ctl.dicr i j ((ctl.channel i).due a) ((ctl.channel j).due c)
  have hj : (ctl.pass a i).pass c j = { (ctl.pass a i).setChannel j ((ctl.channel j).later c) with
      dicr := (ctl.pass a i).dicr.report j ((ctl.channel j).due c) } := by
    rw [pass, channel_pass_of_ne h]
  have hi : (ctl.pass c j).pass a i = { (ctl.pass c j).setChannel i ((ctl.channel i).later a) with
      dicr := (ctl.pass c j).dicr.report i ((ctl.channel i).due a) } := by
    rw [pass, channel_pass_of_ne h.symm]
  rw [hj, hi]
  simp only [pass, setChannel]
  rw [hset, hdicr]

theorem pass_pass (fits : a.toNat + c.toNat < 0x100000000) (ctl : Controller δ) (i : Fin 7) :
    (ctl.pass a i).pass c i = ctl.pass (a + c) i := by
  obtain ⟨hdue, honce⟩ := Channel.due_later fits (ctl.channel i)
  have hreport : (ctl.dicr.report i ((ctl.channel i).due a)).report i
      (((ctl.channel i).later a).due c) = ctl.dicr.report i ((ctl.channel i).due (a + c)) := by
    rw [hdue]
    revert honce
    cases (ctl.channel i).due a <;> cases ((ctl.channel i).later a).due c <;> intro honce
    · rfl
    · rfl
    · rfl
    · cases honce
  rw [pass, channel_pass_self, Channel.later_later fits]
  simp only [pass, setChannel]
  rw [Vector.set_set, hreport]

theorem pass_foldl {i : Fin 7} {l : List (Fin 7)} (h : i ∉ l) (ctl : Controller δ) :
    (l.foldl (pass a) ctl).pass c i = l.foldl (pass a) (ctl.pass c i) := by
  induction l generalizing ctl with
  | nil => rfl
  | cons j l ih =>
    obtain ⟨hij, hl⟩ := not_or.mp (mt List.mem_cons.mpr h)
    rw [List.foldl_cons, List.foldl_cons, ih hl, pass_comm (Ne.symm hij)]

theorem foldl_pass (fits : a.toNat + c.toNat < 0x100000000) {l : List (Fin 7)} (hl : l.Nodup)
    (ctl : Controller δ) :
    l.foldl (pass c) (l.foldl (pass a) ctl) = l.foldl (pass (a + c)) ctl := by
  induction l generalizing ctl with
  | nil => rfl
  | cons i l ih =>
    obtain ⟨hi, hl⟩ := List.nodup_cons.mp hl
    rw [List.foldl_cons, List.foldl_cons, List.foldl_cons, pass_foldl hi, pass_pass fits, ih hl]

theorem later_later (fits : a.toNat + c.toNat < 0x100000000) (ctl : Controller δ) :
    (ctl.later a).later c = ctl.later (a + c) :=
  foldl_pass fits (List.nodup_finRange 7) ctl

theorem settled_foldl (h : ctl.dicr.Settled) (l : List (Fin 7)) :
    (l.foldl (pass a) ctl).dicr.Settled ∧ (ctl.dicr.master → (l.foldl (pass a) ctl).dicr.master) := by
  induction l generalizing ctl with
  | nil => exact ⟨h, id⟩
  | cons i l ih =>
    have hpass : (ctl.pass a i).dicr.Settled := Dicr.settled_report h i _
    obtain ⟨hs, hm⟩ := ih hpass
    exact ⟨hs, fun hc => hm (Dicr.master_report h i _ hc)⟩

end Controller
end Dma

namespace Bus
variable {δ : Type} {b : Bus δ}

/-- The bus with its DMA controller gone on to another state, and its source raised if the master flag
has risen. -/
def withDma (b : Bus δ) (ctl : Dma.Controller δ) : Bus δ :=
  { b with dma := ctl, int := b.int.raised Interrupt.Source.dma (b.dma.dicr.rises ctl.dicr) }

theorem withDma_of_dicr {ctl : Dma.Controller δ} (h : ctl.dicr = b.dma.dicr) :
    b.withDma ctl = { b with dma := ctl } := by
  simp only [withDma, Dma.Dicr.rises]
  rw [h, Bool.and_not_self]
  rfl

theorem withDma_withDma {c d : Dma.Controller δ} (hc : b.dma.dicr.master → c.dicr.master)
    (hd : c.dicr.master → d.dicr.master) : (b.withDma c).withDma d = b.withDma d := by
  have h := Dma.Dicr.rises_add hc hd
  simp only [withDma]
  rw [Interrupt.Controller.raised_add, h]

theorem refreshDicr_leads (b : Bus δ) :
    Leads refreshDicr b (b.withDma { b.dma with dicr := b.dma.dicr.settle }) := by
  have hrises : b.dma.dicr.rises b.dma.dicr.settle =
      (b.dma.dicr.level && !b.dma.dicr.master).toNat := by
    simp only [Dma.Dicr.rises, Dma.Dicr.settle]
    rw [Dma.Dicr.master_setMaster]
  refine .get_bind (.set_bind ?_)
  simp only [withDma]
  rw [hrises]
  cases b.dma.dicr.level && !b.dma.dicr.master with
  | true => exact .get_bind (.quiet_bind (Interrupt.Controller.quiet_raise _ _) (.set _))
  | false => exact .pure _

theorem complete_leads (b : Bus δ) (i : Fin 7) :
    Leads (complete i) b (b.withDma
      { b.dma.setChannel i (b.dma.channel i).finished with dicr := b.dma.dicr.report i true }) := by
  refine .quiet_bind (.note _) (.modify_bind ((refreshDicr_leads _).congr ?_))
  have hrises : (b.dma.dicr.complete i).rises (b.dma.dicr.complete i).settle =
      b.dma.dicr.rises (b.dma.dicr.complete i).settle := by
    simp only [Dma.Dicr.rises]
    rw [Dma.Dicr.master_complete]
  simp only [withDma]
  rw [hrises]
  rfl

theorem updateChannel_leads (b : Bus δ) (cycles : UInt32) (i : Fin 7) :
    Leads (updateChannel cycles i) b (b.withDma (b.dma.pass cycles i)) := by
  have hsame : b.dma.setChannel i (b.dma.channel i) = b.dma := by
    simp only [Dma.Controller.setChannel, Dma.Controller.channel]
    rw [show b.dma.channels.set i b.dma.channels[i] = b.dma.channels from
      Vector.set_getElem_self i.isLt]
  simp only [Dma.Controller.pass, Dma.Channel.due]
  refine .get_bind ?_
  dsimp only
  cases hr : (b.dma.channel i).countdown with
  | none =>
    rw [Dma.Channel.later_none hr, hsame]
    exact .congr (.pure _) (withDma_of_dicr rfl).symm
  | some r =>
    rw [Option.any_some]
    dsimp only
    by_cases h : cycles < r
    · rw [if_pos h, Dma.Channel.later_of_lt hr h, decide_eq_false (UInt32.not_le.mpr h)]
      refine .congr (.set _) ?_
      rw [withDma_of_dicr (by rfl)]
      rfl
    · rw [if_neg h, Dma.Channel.later_of_not_lt hr h, decide_eq_true (UInt32.not_lt.mp h)]
      exact complete_leads b i

/-- Time on the DMA controller is time on its channels, and raises its source at most once. -/
theorem dmaUpdate_leads (h : b.dma.dicr.Settled) (cycles : UInt32) :
    Leads (dmaUpdate cycles) b (b.withDma (b.dma.later cycles)) := by
  simp only [dmaUpdate, Dma.Controller.later]
  generalize channels = l
  induction l generalizing b with
  | nil => exact .congr (.pure _) (withDma_of_dicr rfl).symm
  | cons i l ih =>
    have hs : (b.dma.pass cycles i).dicr.Settled := Dma.Dicr.settled_report h i _
    have hm := Dma.Dicr.master_report h i ((b.dma.channel i).due cycles)
    have hrest := (Dma.Controller.settled_foldl (a := cycles) hs l).2
    refine (updateChannel_leads b cycles i).bind fun _ _ => ?_
    exact (ih (b := b.withDma (b.dma.pass cycles i)) hs).congr (withDma_withDma hm hrest)

end Bus
end R3000
