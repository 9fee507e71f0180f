import R3000.Proofs.CachedWords
import R3000.Proofs.LinkedLists
import R3000.Proofs.PromptTransfers

/-! # A cleared ordering table is a list of empty nodes

The entries of a table lie in one word after another, downwards from its start and around from the lowest
word of RAM to the highest. No table has as many entries as RAM has words, so that none is written twice,
and each still points to the one below when the last has been written. -/
namespace R3000

namespace Dma

/-- The word of RAM that an entry of the table from an address takes. -/
def tableEntry (addr : UInt32) (k : Nat) : UInt32 := (addr - UInt32.ofNat (4 * k)) &&& 0x1ffffc

/-- What an entry of a table of `n` entries holds: the address of the next, or the end of the list. -/
def tableHeader (n : Nat) (addr : UInt32) (k : Nat) : UInt32 :=
  if k + 1 = n then endOfList else tableEntry addr (k + 1)

def HoldsTable (ram : MainRam) (n : Nat) (addr : UInt32) : Prop :=
  ∀ k < n, ram.word (tableEntry addr k) = tableHeader n addr k

section Table
variable {ram : MainRam} {addr : UInt32} {n k : Nat}

theorem toNat_tableEntry (addr : UInt32) (k : Nat) : (tableEntry addr k).toNat =
    (addr.toNat + (0x200000 - 4 * k % 0x200000)) % 0x200000 / 4 * 4 := by
  have h := addr.toNat_lt
  simp only [tableEntry]
  rw [MainRam.toNat_and_word]
  simp only [MainRam.wordOffset, ramSize, UInt32.toNat_sub, UInt32.toNat_ofNat']
  omega

theorem wordOffset_tableEntry (addr : UInt32) (k : Nat) :
    MainRam.wordOffset (tableEntry addr k) = (tableEntry addr k).toNat := by
  simp only [MainRam.wordOffset, ramSize, toNat_tableEntry]
  omega

variable (haddr : addr &&& 0x1ffffc = addr)
include haddr

theorem toNat_of_word : addr.toNat = addr.toNat % 0x200000 / 4 * 4 := by
  have h := MainRam.toNat_and_word addr
  rwa [haddr] at h

theorem tableEntry_zero : tableEntry addr 0 = addr := by
  show (addr - 0) &&& 0x1ffffc = addr
  rw [UInt32.sub_zero, haddr]

/-- The table behind the first entry starts at the second. -/
theorem tableEntry_tableEntry (k : Nat) : tableEntry (tableEntry addr 1) k = tableEntry addr (k + 1) := by
  have hword := toNat_of_word haddr
  rw [← UInt32.toNat_inj, toNat_tableEntry, toNat_tableEntry, toNat_tableEntry]
  omega

/-- Among as many entries as RAM has words, no two take the same. -/
theorem tableEntry_ne (hk : k + 1 < maxNodes) : (tableEntry addr (k + 1)).toNat ≠ addr.toNat := by
  have hword := toNat_of_word haddr
  simp only [maxNodes, ramSize] at hk
  rw [toNat_tableEntry]
  omega

omit haddr in
theorem tableEntry_and (addr : UInt32) (k : Nat) : tableEntry addr k &&& 0x1ffffc = tableEntry addr k := by
  simp only [tableEntry]
  rw [UInt32.and_assoc, UInt32.and_self]

theorem tableHeader_succ (n k : Nat) :
    tableHeader n (tableEntry addr 1) k = tableHeader (n + 1) addr (k + 1) := by
  simp only [tableHeader]
  rw [tableEntry_tableEntry haddr]
  refine ite_congr (propext ⟨fun h => ?_, fun h => ?_⟩) (fun _ => rfl) fun _ => rfl <;> omega

omit haddr in
theorem clearTable_succ (n : Nat) (addr : UInt32) (ram : MainRam) : clearTable (n + 1) addr ram =
    clearTable n (tableEntry addr 1) (ram.setWord addr (tableHeader (n + 1) addr 0)) := by
  cases n with
  | zero => rfl
  | succ n => rfl

/-- To clear a table changes no word of RAM but its entries. -/
theorem word_clearTable_of_ne (ram : MainRam) {y : UInt32}
    (hy : ∀ k < n, MainRam.wordOffset y ≠ (tableEntry addr k).toNat) :
    (clearTable n addr ram).word y = ram.word y := by
  induction n generalizing addr ram with
  | zero => rfl
  | succ n ih =>
    have hrest : ∀ k < n, MainRam.wordOffset y ≠ (tableEntry (tableEntry addr 1) k).toNat := by
      intro k hk
      rw [tableEntry_tableEntry haddr]
      exact hy (k + 1) (Nat.succ_lt_succ hk)
    have hfirst := hy 0 (Nat.succ_pos n)
    rw [← wordOffset_tableEntry, tableEntry_zero haddr] at hfirst
    rw [clearTable_succ, ih (tableEntry_and addr 1) _ hrest, MainRam.word_setWord, if_neg hfirst]

theorem holdsTable_clearTable (ram : MainRam) (hn : n ≤ maxNodes) :
    HoldsTable (clearTable n addr ram) n addr := by
  induction n generalizing addr ram with
  | zero => exact fun k hk => absurd hk (Nat.not_lt_zero k)
  | succ n ih =>
    intro k hk
    rw [clearTable_succ]
    cases k with
    | zero =>
      have hlater : ∀ k < n, MainRam.wordOffset addr ≠ (tableEntry (tableEntry addr 1) k).toNat := by
        intro k hk
        rw [tableEntry_tableEntry haddr, ← MainRam.toNat_and_word, haddr]
        exact (tableEntry_ne haddr (by omega)).symm
      rw [tableEntry_zero haddr, word_clearTable_of_ne (tableEntry_and addr 1) _ hlater,
        MainRam.word_setWord, if_pos rfl]
    | succ k =>
      have hrest := ih (tableEntry_and addr 1) (ram.setWord addr (tableHeader (n + 1) addr 0))
        (Nat.le_of_succ_le hn) k (Nat.lt_of_succ_lt_succ hk)
      rwa [tableEntry_tableEntry haddr, tableHeader_succ haddr] at hrest

end Table

def tableNode (n : Nat) (addr : UInt32) (k : Nat) : Node := ⟨tableEntry addr k, tableHeader n addr k⟩

theorem len_tableNode (n : Nat) (addr : UInt32) (k : Nat) : (tableNode n addr k).len = 0 := by
  have hlow : ∀ header : UInt32, header.toNat < 0x1000000 → header >>> 24 = 0 := by
    intro header h
    rw [← UInt32.toNat_inj, Word.toNat_shiftRight header 24 0x1000000 rfl]
    exact Nat.div_eq_of_lt h
  refine hlow _ ?_
  simp only [tableNode, tableHeader]
  split
  · decide
  · have h := toNat_tableEntry addr (k + 1)
    omega

theorem last_tableNode (n : Nat) (addr : UInt32) (k : Nat) :
    (tableNode n addr k).last = decide (k + 1 = n) := by
  simp only [tableNode, tableHeader, Node.last]
  split
  · simpa [*] using show Word.bit endOfList 23 by decide
  · have hmask : Word.bit 0x1ffffc 23 = false := by decide
    simp [*, tableEntry]

/-- Nodes without payloads count one word each. -/
theorem Walk.size_of_empty {nodes : List Node} (h : ∀ n ∈ nodes, n.len = 0) :
    size nodes = nodes.length := by
  induction nodes with
  | nil => rfl
  | cons n nodes ih =>
    have hlen : n.len.toNat = 0 := by
      rw [h n List.mem_cons_self]
      rfl
    rw [size, hlen, ih fun q hq => h q (List.mem_cons_of_mem n hq), List.length_cons]
    omega

namespace HoldsTable
variable {ram : MainRam} {addr : UInt32} {n k : Nat} (h : HoldsTable ram n addr)
  (haddr : addr &&& 0x1ffffc = addr)
include h haddr

theorem chain (hk : k < n) : chain ram addr k = tableNode n addr k := by
  have hread : ∀ k < n, Node.read ram (tableEntry addr k) = tableNode n addr k := fun k hk =>
    congrArg (Node.mk _) (h k hk)
  induction k with
  | zero =>
    have hfirst := hread 0 hk
    rwa [tableEntry_zero haddr] at hfirst
  | succ k ih =>
    have hnext : (tableNode n addr k).next = tableEntry addr (k + 1) := by
      simp only [tableNode, tableHeader, Node.next]
      rw [if_neg (by omega), tableEntry_and]
    show Node.read ram (Dma.chain ram addr k).next = _
    rw [ih (Nat.lt_of_succ_lt hk), hnext]
    exact hread (k + 1) hk

/-- The last entry ends the list, and no entry before it does. -/
theorem ends (hn : k + 1 = n) : Ends ram addr k := by
  refine ⟨?_, fun j hj => ?_⟩
  · rw [h.chain haddr (by omega), last_tableNode]
    exact decide_eq_true hn
  · rw [h.chain haddr (by omega), last_tableNode, decide_eq_true_iff]
    omega

theorem map_chain : (List.range n).map (Dma.chain ram addr) = (List.range n).map (tableNode n addr) :=
  List.map_congr_left fun _ hk => h.chain haddr (List.mem_range.mp hk)

end HoldsTable
end Dma

/-- A bit beside a field does not matter to it. -/
theorem Word.field_setBit (v : UInt32) {lo width j : Nat} (hj : j < 32) (hend : lo + width ≤ j)
    (on : Bool) : field (setBit v j on) lo width = field v lo width := by
  apply eq_of_bit
  intro i _
  rw [bit_field _ (by omega) (by omega), bit_field _ (by omega) (by omega)]
  by_cases hi : i < width
  · rw [bit_setBit v hj (by omega) on, if_neg (by omega)]
  · simp [hi]

namespace Dma

namespace ChannelControl
variable (c : ChannelControl) (on : Bool)

theorem sync_setTrigger : (c.setTrigger on).sync = c.sync :=
  Word.field_setBit c.word (by decide) (by decide) on

theorem sync_setBusy : (c.setBusy on).sync = c.sync :=
  Word.field_setBit c.word (by decide) (by decide) on

end ChannelControl

theorem Channel.sync_later (ch : Channel) (cycles : UInt32) : (ch.later cycles).chcr.sync = ch.chcr.sync := by
  simp only [later]
  split
  · rfl
  split
  · rfl
  · exact (ChannelControl.sync_setTrigger _ _).trans (ChannelControl.sync_setBusy _ _)

namespace Controller
variable {δ : Type}

def ClearsInBursts (c : Controller δ) : Prop := (c.channel otc).chcr.sync = 0

/-- Nothing that is written to the table channel changes that: its control takes start bits only. -/
theorem sync_writeChannel {ch : Channel} (h : ch.chcr.sync = 0) (offset value : UInt32) :
    (writeChannel otc ch offset value).value.chcr.sync = 0 := by
  simp only [writeChannel]
  split
  · exact h
  · exact h
  · refine Word.field_eq (by decide) (by decide) (by decide) fun i hi => ?_
    have hmask : ∀ i < 2, Word.bit 0x51000000 (9 + i) = false ∧ Word.bit 2 (9 + i) = Word.bit 0 i := by
      decide
    obtain ⟨hstart, hback⟩ := hmask i hi
    show Word.bit ((value &&& 0x51000000) ||| 2) (9 + i) = Word.bit 0 i
    rw [Word.bit_or, Word.bit_and, hstart, hback, Bool.and_false, Bool.false_or]
  · exact h

end Controller
end Dma

namespace Bus
variable {δ : Type} {b : Bus δ}

theorem stored_bursts (h : b.dma.ClearsInBursts) (offset value : UInt32) :
    (stored offset value b).dma.ClearsInBursts := by
  unfold stored
  split
  · exact h
  split
  · exact h
  split
  · exact h
  split
  · rename_i hi
    dsimp only
    generalize (⟨_, hi⟩ : Fin 7) = i
    simp only [Dma.Controller.ClearsInBursts]
    by_cases hn : i = Dma.otc
    · subst hn
      rw [Dma.Controller.channel_setChannel_self]
      exact Dma.Controller.sync_writeChannel h offset value
    · rw [Dma.Controller.channel_setChannel_of_ne _ (Ne.symm hn)]
      exact h
  · exact h

def moving : Motion (Bus δ) where
  holds b _ t := t.dma = b.dma
  still _ _ := rfl
  trans h k := k.trans h

theorem move_moving (i : Fin 7) (fromRam : Bool) (addr len : UInt32) :
    Moves moving (move i fromRam addr len) b := by
  cases fromRam with
  | true =>
    refine .get_bind ?_
    split
    · exact rfl
    · exact .note _
  | false =>
    refine .get_bind ?_
    split
    · exact rfl
    · exact .note _

theorem burst_moving (i : Fin 7) : Moves moving (burst i) b := by
  refine .get_bind ?_
  dsimp only
  split
  · exact rfl
  split
  · exact .quiet_bind (.note _) (.bind (move_moving _ _ _ _) fun _ _ _ => .pure _)
  · exact .bind (move_moving _ _ _ _) fun _ _ _ => .pure _

theorem tryStart_bursts (h : b.dma.ClearsInBursts) (i : Fin 7) :
    (tryStart i b).value.2.dma.ClearsInBursts := by
  simp only [Dma.Controller.ClearsInBursts] at *
  by_cases hi : i = Dma.otc
  · subst hi
    cases hready : ready Dma.otc b with
    | true =>
      have hchannel := channel_triggered Dma.otc b
      rw [tryStart_ready hready]
      show ((await Dma.otc (launch Dma.otc b).value.1 (launch Dma.otc b).value.2).value.2.dma.channel
        Dma.otc).chcr.sync = 0
      rw [channel_await, launch_triggered h]
      show ((burst Dma.otc (triggered Dma.otc b)).value.2.dma.channel Dma.otc).chcr.sync = 0
      have hburst : (burst Dma.otc (triggered Dma.otc b)).value.2.dma = _ := burst_moving Dma.otc
      rw [hburst, hchannel]
      exact (Dma.ChannelControl.sync_setTrigger _ _).trans h
    | false =>
      rw [tryStart_passes hready]
      exact h
  · have htry : Transferred i b _ _ := tryStart_transfers i
    rw [htry.channel Dma.otc (Ne.symm hi)]
    exact h

theorem lasting_bursts : Dma.Lasting fun _ c => c.ClearsInBursts where
  idle h := by
    simp only [Dma.Controller.ClearsInBursts, Dma.Controller.channel]
    rw [h]
    decide
  congr h hc _ := by
    simp only [Dma.Controller.ClearsInBursts, Dma.Controller.channel] at *
    rwa [hc]
  later cycles h := by
    simp only [Dma.Controller.ClearsInBursts] at *
    rw [Dma.Controller.channel_later, Dma.Channel.sync_later, h]
  store {δ b} offset value h := by
    have htries : ∀ (l : List (Fin 7)) (s : Bus δ), s.dma.ClearsInBursts →
        (l.forM tryStart s).value.2.dma.ClearsInBursts := by
      intro l
      induction l with
      | nil => exact fun _ hs => hs
      | cons i l ih => exact fun s hs => ih _ (tryStart_bursts hs i)
    rw [(dmaWrite_stored offset value b).2]
    exact htries _ _ (stored_bursts h offset value)

/-- The states in which a channel is tried: one of its registers has been stored to, or channels have
been tried since. -/
inductive Trying : Bus δ → Prop
  | entered {b : Bus δ} (reg value : UInt32) (w : Width) : b.Reachable → Trying (entered reg value w b)
  | tried {b : Bus δ} (i : Fin 7) : Trying b → Trying (tryStart i b).value.2

theorem Trying.bursts (h : Trying b) : b.dma.ClearsInBursts := by
  induction h with
  | entered _ _ _ h => exact stored_bursts (lasting_bursts.reachable h) _ _
  | tried i _ ih => exact tryStart_bursts ih i

theorem tryStart_table_ram (hready : ready Dma.otc b)
    (hsync : (b.dma.channel Dma.otc).chcr.sync = 0) (hreader : b.dma.reader? Dma.otc = none) :
    (tryStart Dma.otc b).value.2.ram =
      Dma.clearTable (b.dma.channel Dma.otc).burst.toNat (b.dma.channel Dma.otc).start b.ram := by
  have hrun : (run Dma.otc b).value.2.ram = _ := (run_hauls Dma.otc b).2.1
  rw [hsync, show (0 : UInt32).toNat = 0 from rfl, haul_table hreader] at hrun
  rw [tryStart_ready hready]
  exact hrun

/-- The longest table is shorter than RAM. -/
theorem burst_bounds (ch : Dma.Channel) : 0 < ch.burst.toNat ∧ ch.burst.toNat ≤ 0x10000 := by
  have hlow : ch.blockLen.toNat ≤ 0xffff := by
    simp only [Dma.Channel.blockLen]
    rw [UInt32.toNat_and]
    exact Nat.and_le_right
  simp only [Dma.Channel.burst]
  split
  · decide
  · have hne : ch.blockLen.toNat ≠ 0 := fun h => ‹¬_› (UInt32.toNat_inj.mp h)
    omega

/-- What a transfer along a list does that starts where a table does. -/
structure VisitsTable (n : Nat) (addr : UInt32) (i : Fin 7) (c : Bus δ) : Prop where
  walk : Dma.Walk.start c.ram (c.dma.channel i).start =
    ⟨(List.range n).map (Dma.tableNode n addr), true⟩
  words : (words i c).toNat = n
  acts : (tryStart i c).record.acts = []
  outside : (tryStart i c).value.2.outside = c.outside
  ended : .endlessList i ∉ (tryStart i c).record.notices

theorem visitsTable {n : Nat} {addr : UInt32} (haddr : addr &&& 0x1ffffc = addr) (hn : 0 < n)
    {i : Fin 7} {c : Bus δ} (hready : ready i c) (hsync : (c.dma.channel i).chcr.sync = 2)
    (hfrom : (c.dma.channel i).chcr.fromRam) (hstart : (c.dma.channel i).start = addr)
    (h : Dma.HoldsTable c.ram n addr) : VisitsTable n addr i c := by
  obtain ⟨k, rfl⟩ := Nat.exists_eq_succ_of_ne_zero (Nat.ne_of_gt hn)
  have hempty : ∀ q ∈ (List.range (k + 1)).map (Dma.tableNode (k + 1) addr), q.len = 0 := by
    intro q hq
    obtain ⟨j, -, rfl⟩ := List.mem_map.mp hq
    exact Dma.len_tableNode _ _ _
  have hnone : ((List.range (k + 1)).map (Dma.tableNode (k + 1) addr)).filter (fun q => q.len ≠ 0) =
      [] := List.filter_eq_nil_iff.mpr fun q hq => by simp [hempty q hq]
  have hwalk : Dma.Walk.start c.ram (c.dma.channel i).start =
      ⟨(List.range (k + 1)).map (Dma.tableNode (k + 1) addr), true⟩ := by
    rw [hstart, ← haddr, Dma.Walk.start_ended (haddr.symm ▸ h.ends haddr rfl), haddr, h.map_chain haddr]
  have hwalked := tryStart_walked hready hsync hfrom hwalk
  have hnothing : (tryStart i c).record.acts = [] ∧ (tryStart i c).value.2.outside = c.outside := by
    cases hwriter : c.dma.writer? i with
    | none => exact hwalked.unbound hwriter
    | some write =>
      have hhanded := hwalked.handed write hwriter
      rwa [hnone] at hhanded
  refine ⟨hwalk, ?_, hnothing.1, hnothing.2, fun hend => ?_⟩
  · rw [hwalked.words, Dma.Walk.size_of_empty hempty, List.length_map, List.length_range]
  · cases hwalked.endless.mp hend

/-- Sets the table channel up for three entries from address 4 down, and starts it. -/
def clearing : Bus Unit :=
  entered 0x68 0x11000000 .word ((Machine.booting [0x3c08bf80, 0x34090004, 0xad0910e0, 0x34090003,
    0xad0910e4, 0x3c090800, 0xad0910f0] (by decide)).steps 7).bus

/-- The table in RAM, and a channel that is set up to send it. -/
def cleared (i : Fin 7) : Bus Unit := sending i 4 (tryStart Dma.otc clearing).value.2

end Bus
end R3000
