import R3000.Proofs.Alignment
import R3000.Proofs.DmaTime
import R3000.Proofs.ExactResults
import R3000.Proofs.Regions
import R3000.Proofs.SerialTime

/-! # Arithmetic that no check guards

Periods and countdowns, lengths of transfers, addresses of payloads and pieces, offsets into banks and
windows, products, and counts of bits are computed without a check. None of them leaves its range, so that
each is the number it is meant to be; and words are divided only where they have a quotient. -/
namespace R3000

namespace Serial

/-- The bit clock loses no cycle: those that have passed and those to go make whole periods, but for the
first one. -/
theorem Timer.cycles_advance {t : Timer} (h : t.WellFormed) {r : UInt32} (hr : t.remaining = some r)
    (cycles : UInt32) : ∃ s, (t.advance cycles).remaining = some s ∧
      cycles.toNat + s.toNat = r.toNat + (t.expiries cycles).toNat * t.period.toNat := by
  obtain ⟨s, hs, hleft⟩ := remaining_advance h hr cycles
  refine ⟨s, by rw [hs], ?_⟩
  rw [toNat_expiries h hr, hleft]
  simp only [left, due]
  split
  · omega
  · have hpos : 0 < t.period.toNat := UInt32.lt_iff_toNat_lt.mp (h r hr).2
    have hmod := Nat.mod_lt (cycles.toNat - r.toNat) hpos
    have hwhole := Nat.div_add_mod' (cycles.toNat - r.toNat) t.period.toNat
    rw [Nat.add_mul]
    omega

theorem toNat_multiplier_le (m : Mode) : m.multiplier.toNat ≤ 64 := by
  simp only [Mode.multiplier]
  split <;> decide

theorem Port.toNat_period (p : Port) :
    p.period.toNat = p.mode.multiplier.toNat * p.baud.toNat := by
  have hb : p.baud.toUInt32.toNat = p.baud.toNat := UInt16.toNat_toUInt32 p.baud
  have hlt := p.baud.toNat_lt
  have hle := Nat.mul_le_mul (toNat_multiplier_le p.mode) (Nat.le_of_lt hlt)
  simp only [period]
  rw [UInt32.toNat_mul, hb]
  exact Nat.mod_eq_of_lt (Nat.lt_of_le_of_lt hle (by decide))

/-- A character is loaded with at least one bit to send. -/
theorem Port.loadChar_pos {p q : Port} (h : p.loadChar = some q) : 0 < q.txBits.toNat := by
  simp only [loadChar] at h
  split at h
  · cases h
    exact p.shifting_iff.mp ‹_›
  split at h
  · cases h
    exact Nat.lt_of_lt_of_le (by decide) (bitsPerChar_bounds p.mode).1
  · cases h

end Serial

namespace Dma

theorem Channel.toNat_blocks (ch : Channel) :
    ch.blocks.toNat = ch.blockLen.toNat * (ch.bcr >>> 16).toNat := by
  have hl : ch.blockLen.toNat ≤ 0xffff := by
    simp only [blockLen]
    rw [UInt32.toNat_and]
    exact Nat.and_le_right
  have hc : (ch.bcr >>> 16).toNat ≤ 0xffff := by
    have h := ch.bcr.toNat_lt
    rw [Word.toNat_shiftRight ch.bcr 16 0x10000 rfl]
    omega
  simp only [blocks]
  rw [UInt32.toNat_mul]
  exact Nat.mod_eq_of_lt (Nat.lt_of_le_of_lt (Nat.mul_le_mul hl hc) (by decide))

def ramWord (addr : UInt32) : Prop := addr.toNat ≤ 0x1ffffc

theorem ramWord_and (w : UInt32) : ramWord (w &&& 0x1ffffc) := by
  simp only [ramWord]
  rw [UInt32.toNat_and]
  exact Nat.and_le_right

theorem Node.toNat_len_lt (n : Node) : n.len.toNat < 0x100 := by
  have h := n.header.toNat_lt
  simp only [len]
  rw [Word.toNat_shiftRight n.header 24 0x1000000 rfl]
  omega

theorem Node.toNat_payload {n : Node} (h : ramWord n.addr) : n.payload.toNat = n.addr.toNat + 4 := by
  have : n.addr.toNat ≤ 0x1ffffc := h
  have hf : (4 : UInt32).toNat = 4 := rfl
  simp only [payload]
  rw [UInt32.toNat_add]
  omega

namespace Walk

theorem length_follow (ram : MainRam) (fuel : Nat) (addr : UInt32) (seen : List Node) :
    (follow ram fuel addr seen).nodes.length ≤ fuel + seen.length := by
  induction fuel generalizing addr seen with
  | zero => simp [follow]
  | succ fuel ih =>
    simp only [follow]
    split
    · rw [List.length_reverse, List.length_cons]
      omega
    · have hrest := ih (Node.read ram addr).next (Node.read ram addr :: seen)
      rw [List.length_cons] at hrest
      omega

/-- Every address behind the first comes out of a header, with the same bits masked. -/
theorem forall_follow (ram : MainRam) (fuel : Nat) {P : UInt32 → Prop} (hmask : ∀ w, P (w &&& 0x1ffffc))
    {addr : UInt32} {seen : List Node} (ha : P addr) (hs : ∀ n ∈ seen, P n.addr) :
    ∀ n ∈ (follow ram fuel addr seen).nodes, P n.addr := by
  induction fuel generalizing addr seen with
  | zero => exact fun n hn => hs n (List.mem_reverse.mp hn)
  | succ fuel ih =>
    have hnode : ∀ n ∈ Node.read ram addr :: seen, P n.addr := List.forall_mem_cons.mpr ⟨ha, hs⟩
    simp only [follow]
    split
    · exact fun n hn => hnode n (List.mem_reverse.mp hn)
    · exact ih (hmask _) hnode

theorem start_spec (ram : MainRam) {addr : UInt32} (ha : ramWord addr) :
    (start ram addr).nodes.length ≤ maxNodes ∧ ∀ n ∈ (start ram addr).nodes, ramWord n.addr :=
  ⟨length_follow ram maxNodes addr [], forall_follow ram maxNodes ramWord_and ha nofun⟩

def size : List Node → Nat
  | [] => 0
  | n :: nodes => n.len.toNat + 1 + size nodes

theorem toNat_words_from (nodes : List Node) (total : UInt32)
    (h : total.toNat + size nodes < 0x100000000) :
    (nodes.foldl (fun total n => total + n.len + 1) total).toNat = total.toNat + size nodes := by
  induction nodes generalizing total with
  | nil => rfl
  | cons n nodes ih =>
    have hone : (1 : UInt32).toNat = 1 := rfl
    rw [size] at h
    have hsum : (total + n.len + 1).toNat = total.toNat + (n.len.toNat + 1) := by
      rw [UInt32.toNat_add, UInt32.toNat_add]
      omega
    rw [List.foldl_cons, ih _ (by omega), hsum, size, Nat.add_assoc]

theorem size_le (nodes : List Node) : size nodes ≤ 0x100 * nodes.length := by
  induction nodes with
  | nil => exact Nat.le_refl 0
  | cons n nodes ih =>
    have := n.toNat_len_lt
    rw [size, List.length_cons]
    omega

theorem toNat_words (ram : MainRam) {addr : UInt32} (ha : ramWord addr) :
    (start ram addr).words.toNat = size (start ram addr).nodes := by
  have hl := (start_spec ram ha).1
  have hs := size_le (start ram addr).nodes
  have hm : maxNodes = 0x80000 := rfl
  simp only [words]
  rw [toNat_words_from _ _ ?_]
  · exact Nat.zero_add _
  · have h0 : (0 : UInt32).toNat = 0 := rfl
    omega

end Walk
end Dma

namespace Lane

theorem toNat_shift_le (addr : UInt32) (w : Width) : (shift addr w).toNat ≤ 24 := by
  have h : ∀ k : UInt32, k.toNat ≤ 3 → ((addr &&& k) * 8).toNat ≤ 24 := by
    intro k hk
    have hle : (addr &&& k).toNat ≤ 3 := by
      rw [UInt32.toNat_and]
      exact Nat.le_trans Nat.and_le_right hk
    rw [UInt32.toNat_mul, show (8 : UInt32).toNat = 8 from rfl]
    omega
  cases w with
  | byte => exact h 3 (by decide)
  | half => exact h 2 (by decide)
  | word => exact Nat.zero_le 24

theorem piece_le (l : Fin 4) : ∀ p ∈ upTo l ++ onward l, p.1.toNat ≤ 3 ∧ (8 * p.1).toNat ≤ 24 := by
  revert l
  decide

theorem toNat_add_piece (vaddr : UInt32) {l : Fin 4} {p : UInt32 × Width}
    (hp : p ∈ upTo l ++ onward l) : (base vaddr + p.1).toNat = (base vaddr).toNat + p.1.toNat := by
  have h := (piece_le l p hp).1
  have hb : (base vaddr).toNat ≤ 0xfffffffc := by
    simp only [base]
    rw [UInt32.toNat_and]
    exact Nat.and_le_right
  rw [UInt32.toNat_add]
  omega

end Lane

/-- What is computed without a check, and the number that it is meant to be. -/
structure ExactArithmetic : Prop where
  period : ∀ p : Serial.Port, p.period.toNat = p.mode.multiplier.toNat * p.baud.toNat
  bitsPerChar : ∀ m : Serial.Mode, m.bitsPerChar.toNat = m.charLen.toNat + 5
  /-- A bit is taken off the count of bits to send only where there is one. -/
  txBits : ∀ p q : Serial.Port, p.loadChar = some q → (q.txBits - 1).toNat + 1 = q.txBits.toNat
  bitClock : ∀ (t : Serial.Timer) (r cycles : UInt32), t.WellFormed → t.remaining = some r →
    ∃ s, (t.advance cycles).remaining = some s ∧
      cycles.toNat + s.toNat = r.toNat + (t.expiries cycles).toNat * t.period.toNat
  countdown : ∀ (ch : Dma.Channel) (r cycles : UInt32), ch.countdown = some r → cycles < r →
    ∃ s, (ch.later cycles).countdown = some s ∧ cycles.toNat + s.toNat = r.toNat
  /-- The bits of a channel in the two registers that it shares with others. -/
  channelBits : ∀ i : Fin 7, 3 + 4 * i.val < 32 ∧ 16 + i.val < 24 ∧ 24 + i.val < 31
  blocks : ∀ ch : Dma.Channel, ch.blocks.toNat = ch.blockLen.toNat * (ch.bcr >>> 16).toNat
  words : ∀ (ram : MainRam) (ch : Dma.Channel),
    (Dma.Walk.start ram ch.start).words.toNat = Dma.Walk.size (Dma.Walk.start ram ch.start).nodes
  payload : ∀ (ram : MainRam) (ch : Dma.Channel), ∀ n ∈ (Dma.Walk.start ram ch.start).nodes,
    n.payload.toNat = n.addr.toNat + 4
  shift : ∀ addr w, (Lane.shift addr w).toNat ≤ 24
  piece : ∀ (vaddr : UInt32) (l : Fin 4), ∀ p ∈ Lane.upTo l ++ Lane.onward l,
    (Lane.base vaddr + p.1).toNat = (Lane.base vaddr).toNat + p.1.toNat ∧ (8 * p.1).toNat ≤ 24
  /-- A word is shifted by what its lane leaves of the highest. -/
  merge : ∀ vaddr, (24 - UInt32.ofNat (8 * Lane.of vaddr)).toNat + 8 * (Lane.of vaddr).val = 24
  product : ∀ a b : UInt32,
    (a.toInt32.toInt64 * b.toInt32.toInt64).toInt = Word.signed a * Word.signed b ∧
      (a.toUInt64 * b.toUInt64).toNat = a.toNat * b.toNat
  division : ∀ (op : MulDivOp) (lhs rhs : UInt32), (op.result lhs rhs).record.faults = []
  region : ∀ addr, (Bus.Region.of addr).At addr
  group : ∀ offset g, Bus.Group.of? offset = some g → g.At offset

theorem exactArithmetic : ExactArithmetic where
  period := Serial.Port.toNat_period
  bitsPerChar := Serial.Port.toNat_bitsPerChar
  txBits _ q h := by
    have hpos := Serial.Port.loadChar_pos h
    have hle : (1 : UInt8) ≤ q.txBits := UInt8.le_iff_toNat_le.mpr hpos
    rw [UInt8.toNat_sub_of_le _ _ hle]
    exact Nat.sub_add_cancel hpos
  bitClock _ _ cycles ht hr := Serial.Timer.cycles_advance ht hr cycles
  countdown ch r cycles hr hlt := by
    rw [Dma.Channel.later_of_lt hr hlt]
    refine ⟨_, rfl, ?_⟩
    rw [UInt32.toNat_sub_of_le _ _ (UInt32.le_of_lt hlt)]
    exact Nat.add_sub_cancel' (Nat.le_of_lt (UInt32.lt_iff_toNat_lt.mp hlt))
  channelBits := by decide
  blocks := Dma.Channel.toNat_blocks
  words ram ch := Dma.Walk.toNat_words ram (Dma.ramWord_and ch.madr)
  payload ram ch n hn := Dma.Node.toNat_payload
    ((Dma.Walk.start_spec ram (Dma.ramWord_and ch.madr)).2 n hn)
  shift := Lane.toNat_shift_le
  piece vaddr l p hp := ⟨Lane.toNat_add_piece vaddr hp, (Lane.piece_le l p hp).2⟩
  merge vaddr := by
    generalize Lane.of vaddr = l
    revert l
    decide
  product a b := ⟨MulDivOp.toInt_product a b, MulDivOp.toNat_product a b⟩
  division op lhs rhs := congrArg Record.faults (op.record_result lhs rhs)
  region := Bus.Region.at_of
  group _ _ := Bus.Group.at_of

end R3000
