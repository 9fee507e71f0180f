import Mathlib.Data.Fintype.Card
import R3000.Proofs.CachedWords
import R3000.Proofs.DmaTransfers
import R3000.Proofs.ExactArithmetic
import R3000.Proofs.Reachability

/-! # Walks along linked lists

The headers in RAM may lead anywhere, to nodes that have been visited and into payloads as well. A walk
visits each node up to the first that ends the list: before that no word of RAM comes up twice, so that
there are no more nodes than words. Where no header ends the list, the walk gives up after as many. -/
namespace R3000

/-- The address of a word of RAM, as the transfers form it. -/
theorem MainRam.toNat_and_word (w : UInt32) : (w &&& 0x1ffffc).toNat = wordOffset w := by
  have hle : (w &&& 0x1fffff).toNat = w.toNat % ramSize := by
    rw [UInt32.toNat_and]
    exact Nat.and_two_pow_sub_one_eq_mod _ 21
  have hbase : w &&& 0x1ffffc = Lane.base (w &&& 0x1fffff) := by
    simp only [Lane.base]
    rw [UInt32.and_assoc]
    rfl
  rw [hbase, Lane.toNat_base, hle]
  rfl

namespace Dma

/-- The node that the headers lead to from the one at an address, after so many of them. -/
def chain (ram : MainRam) (addr : UInt32) : Nat → Node
  | 0 => .read ram addr
  | k + 1 => .read ram (chain ram addr k).next

/-- The node after `m` headers is the first that ends the list. -/
structure Ends (ram : MainRam) (addr : UInt32) (m : Nat) : Prop where
  last : (chain ram addr m).last
  first : ∀ k < m, ¬(chain ram addr k).last

section Chain
variable {ram : MainRam} {addr x : UInt32} {m fuel : Nat} {seen : List Node}

theorem chain_next (ram : MainRam) (addr : UInt32) (k : Nat) :
    chain ram (Node.read ram addr).next k = chain ram addr (k + 1) := by
  induction k with
  | zero => rfl
  | succ k ih => exact congrArg (fun n : Node => Node.read ram n.next) ih

/-- The nodes of a chain are one node and those of the chain behind it. -/
theorem map_chain_succ (ram : MainRam) (addr : UInt32) (n : Nat) :
    (List.range (n + 1)).map (chain ram addr) =
      .read ram addr :: (List.range n).map (chain ram (Node.read ram addr).next) := by
  rw [List.range_succ_eq_map, List.map_cons, List.map_map]
  refine congrArg₂ List.cons rfl (List.map_congr_left fun k _ => ?_)
  exact (chain_next ram addr k).symm

theorem Ends.next (h : Ends ram addr (m + 1)) : Ends ram (Node.read ram addr).next m := by
  refine ⟨?_, fun k hk => ?_⟩
  · rw [chain_next]
    exact h.last
  · rw [chain_next]
    exact h.first (k + 1) (Nat.succ_lt_succ hk)

namespace Walk

theorem follow_ended (h : Ends ram addr m) (hm : m < fuel) :
    follow ram fuel addr seen = ⟨seen.reverse ++ (List.range (m + 1)).map (chain ram addr), true⟩ := by
  induction m generalizing fuel addr seen with
  | zero =>
    obtain ⟨fuel, rfl⟩ := Nat.exists_eq_succ_of_ne_zero (Nat.ne_of_gt hm)
    have hlast : (Node.read ram addr).last := h.last
    simp only [follow]
    rw [if_pos hlast, List.reverse_cons]
    rfl
  | succ m ih =>
    obtain ⟨fuel, rfl⟩ := Nat.exists_eq_succ_of_ne_zero (Nat.ne_zero_of_lt hm)
    have hlast : ¬(Node.read ram addr).last := h.first 0 (Nat.succ_pos m)
    simp only [follow]
    rw [if_neg hlast, ih h.next (Nat.lt_of_succ_lt_succ hm), List.reverse_cons, List.append_assoc,
      map_chain_succ ram addr (m + 1)]
    rfl

theorem follow_endless (h : ∀ k < fuel, ¬(chain ram addr k).last) :
    follow ram fuel addr seen = ⟨seen.reverse ++ (List.range fuel).map (chain ram addr), false⟩ := by
  induction fuel generalizing addr seen with
  | zero => simp [follow]
  | succ fuel ih =>
    have hlast : ¬(Node.read ram addr).last := h 0 (Nat.succ_pos fuel)
    have hrest : ∀ k < fuel, ¬(chain ram (Node.read ram addr).next k).last := fun k hk => by
      rw [chain_next]
      exact h (k + 1) (Nat.succ_lt_succ hk)
    simp only [follow]
    rw [if_neg hlast, ih hrest, List.reverse_cons, List.append_assoc, map_chain_succ]
    rfl

end Walk

/-- From a node on, what follows is settled by its address. -/
theorem chain_add {i j : Nat} (h : (chain ram addr i).addr = (chain ram addr j).addr) (k : Nat) :
    chain ram addr (i + k) = chain ram addr (j + k) := by
  have hread : ∀ i, chain ram addr i = .read ram (chain ram addr i).addr := fun i => by cases i <;> rfl
  induction k with
  | zero =>
    show chain ram addr i = chain ram addr j
    rw [hread i, hread j, h]
  | succ k ih => exact congrArg (fun n : Node => Node.read ram n.next) ih

/-- Every node of a chain from a word of RAM lies at one. -/
theorem addr_chain (ram : MainRam) (x : UInt32) (k : Nat) :
    ∃ y, (chain ram (x &&& 0x1ffffc) k).addr = y &&& 0x1ffffc := by
  cases k with
  | zero => exact ⟨x, rfl⟩
  | succ k => exact ⟨_, rfl⟩

theorem toNat_word (x : UInt32) :
    (x &&& 0x1ffffc).toNat < ramSize ∧ (x &&& 0x1ffffc).toNat % 4 = 0 := by
  rw [MainRam.toNat_and_word]
  simp only [MainRam.wordOffset, ramSize]
  omega

/-- Up to the first node that ends the list, no word of RAM comes up twice. -/
theorem Ends.lt_maxNodes (h : Ends ram (x &&& 0x1ffffc) m) : m < maxNodes := by
  have hword : ∀ k, (chain ram (x &&& 0x1ffffc) k).addr.toNat < ramSize ∧
      (chain ram (x &&& 0x1ffffc) k).addr.toNat % 4 = 0 := fun k => by
    obtain ⟨y, hy⟩ := addr_chain ram x k
    rw [hy]
    exact toNat_word y
  have hindex : ∀ k, (chain ram (x &&& 0x1ffffc) k).addr.toNat / 4 < maxNodes := fun k => by
    have hk := hword k
    simp only [maxNodes, ramSize] at *
    omega
  -- were a word to come up again, the end would have come as much earlier
  have hdistinct : ∀ i j, i < j → j ≤ m →
      (chain ram (x &&& 0x1ffffc) i).addr ≠ (chain ram (x &&& 0x1ffffc) j).addr := by
    intro i j hij hj hsame
    have hend := chain_add hsame (m - j)
    rw [Nat.add_sub_cancel' hj] at hend
    exact h.first _ (by omega) (hend ▸ h.last)
  have hinj : Function.Injective fun k : Fin (m + 1) =>
      (⟨(chain ram (x &&& 0x1ffffc) k).addr.toNat / 4, hindex k⟩ : Fin maxNodes) := by
    intro i j hij
    have hdiv := Fin.mk.inj hij
    have hi := hword i
    have hj := hword j
    have hsame : (chain ram (x &&& 0x1ffffc) i).addr = (chain ram (x &&& 0x1ffffc) j).addr := by
      rw [← UInt32.toNat_inj]
      omega
    obtain hlt | heq | hlt := Nat.lt_trichotomy i j
    · exact absurd hsame (hdistinct i j hlt (Nat.le_of_lt_succ j.isLt))
    · exact Fin.ext heq
    · exact absurd hsame.symm (hdistinct j i hlt (Nat.le_of_lt_succ i.isLt))
  have hcard := Fintype.card_le_of_injective _ hinj
  rwa [Fintype.card_fin, Fintype.card_fin] at hcard

theorem Walk.start_ended (h : Ends ram (x &&& 0x1ffffc) m) :
    start ram (x &&& 0x1ffffc) = ⟨(List.range (m + 1)).map (chain ram (x &&& 0x1ffffc)), true⟩ := by
  simp only [start]
  rw [follow_ended h h.lt_maxNodes, List.reverse_nil, List.nil_append]

theorem Walk.start_endless (h : ∀ k, ¬(chain ram addr k).last) :
    start ram addr = ⟨(List.range maxNodes).map (chain ram addr), false⟩ := by
  simp only [start]
  rw [follow_endless fun k _ => h k, List.reverse_nil, List.nil_append]

end Chain

end Dma

namespace Bus
variable {δ : Type} {b : Bus δ} {i : Fin 7} {nodes : List Dma.Node}

/-- What a transfer of channel `i` along a list does that visits these nodes. -/
structure Walked (i : Fin 7) (nodes : List Dma.Node) (ended : Bool) (b : Bus δ) (r : Record)
    (t : Bus δ) : Prop where
  /-- Each node counts with its header and its payload. -/
  words : (words i b).toNat = Dma.Walk.size nodes
  countdown : (t.dma.channel i).countdown = some (duration (Bus.words i b) b.dma.wordCycles)
  madr : (t.dma.channel i).madr = 0x00ffffff
  /-- The writer is handed each node that has a payload, once and in order. -/
  handed : ∀ write, b.dma.writer? i = some write →
    r.acts = (nodes.filter fun n => n.len ≠ 0).map (fun n => .dmaWrite i (n.addr + 4) n.len) ∧
      t.outside = (nodes.filter fun n => n.len ≠ 0).foldl
        (fun o n => write (n.addr + 4) n.len b.ram o) b.outside
  unbound : b.dma.writer? i = none → r.acts = [] ∧ t.outside = b.outside
  endless : .endlessList i ∈ r.notices ↔ ended = false
  ram : t.ram = b.ram

theorem sendNodes_bound (nodes : List Dma.Node) {write : Dma.Writer δ} (h : b.dma.writer? i = some write) :
    (sendNodes i nodes b).record.acts =
        (nodes.filter fun n => n.len ≠ 0).map (fun n => .dmaWrite i (n.addr + 4) n.len) ∧
      (sendNodes i nodes b).value.outside = (nodes.filter fun n => n.len ≠ 0).foldl
        (fun o n => write (n.addr + 4) n.len b.ram o) b.outside := by
  simp only [sendNodes]
  rw [h]
  exact ⟨rfl, rfl⟩

theorem sendNodes_unbound (nodes : List Dma.Node) (h : b.dma.writer? i = none) :
    (sendNodes i nodes b).record.acts = [] ∧ (sendNodes i nodes b).value.outside = b.outside := by
  simp only [sendNodes]
  rw [h]
  exact ⟨rfl, rfl⟩

/-- To hand nodes over changes nothing but the world outside, and is no reason to report a list. -/
theorem sendNodes_frame (i : Fin 7) (nodes : List Dma.Node) (b : Bus δ) :
    (sendNodes i nodes b).value.ram = b.ram ∧ (sendNodes i nodes b).value.dma = b.dma ∧
      .endlessList i ∉ (sendNodes i nodes b).record.notices := by
  simp only [sendNodes]
  split
  · exact ⟨rfl, rfl, List.not_mem_nil⟩
  · refine ⟨rfl, rfl, fun h => ?_⟩
    obtain ⟨n, -, hn⟩ := List.mem_map.mp h
    cases hn

def listed (i : Fin 7) (b : Bus δ) (walk : Dma.Walk) : Bus δ :=
  let sent := (sendNodes i walk.nodes b).value
  { sent with dma := sent.dma.setChannel i { b.dma.channel i with madr := Dma.endOfList } }

theorem channel_listed (i : Fin 7) (b : Bus δ) (walk : Dma.Walk) : (listed i b walk).dma.channel i =
    { b.dma.channel i with madr := Dma.endOfList } :=
  Dma.Controller.channel_setChannel_self ..

theorem channel_await (i : Fin 7) (words : UInt32) (b : Bus δ) :
    (await i words b).value.2.dma.channel i =
      { b.dma.channel i with countdown := some (duration words b.dma.wordCycles) } :=
  Dma.Controller.channel_setChannel_self ..

theorem list_walked (h : (b.dma.channel i).chcr.fromRam) {walk : Dma.Walk}
    (hw : Dma.Walk.start b.ram (b.dma.channel i).start = walk) :
    (list i b).value = (walk.words, listed i b walk) ∧
      (list i b).record.acts = (sendNodes i walk.nodes b).record.acts ∧
      (list i b).record.notices = (sendNodes i walk.nodes b).record.notices ++
        if walk.ended then [] else [.endlessList i] := by
  subst hw
  have hlist : list i b = (do
      let walk := Dma.Walk.start b.ram (b.dma.channel i).start
      let sent ← sendNodes i walk.nodes b
      if !walk.ended then note (.endlessList i)
      set { sent with dma := sent.dma.setChannel i { b.dma.channel i with madr := Dma.endOfList } }
      return walk.words : Bus.Op δ UInt32) b := by
    show (if (b.dma.channel i).chcr.fromRam then _ else _ : Bus.Op δ UInt32) b = _
    rw [if_pos h]
  rw [hlist]
  generalize Dma.Walk.start b.ram (b.dma.channel i).start = walk
  obtain ⟨nodes, ended⟩ := walk
  cases ended with
  | true => exact ⟨rfl, (List.append_nil _).trans (List.append_nil _), List.append_nil _⟩
  | false =>
    exact ⟨rfl, (List.append_nil _).trans (List.append_nil _), congrArg (· ++ _) (List.append_nil _)⟩

section Walk
variable {ended : Bool} (hready : ready i b) (hsync : (b.dma.channel i).chcr.sync = 2)
  (hfrom : (b.dma.channel i).chcr.fromRam)
  (hw : Dma.Walk.start b.ram (b.dma.channel i).start = ⟨nodes, ended⟩)
include hready hsync hfrom hw

/-- A channel that starts along a list hands over the nodes of the walk, and then waits for as long as they
take. -/
theorem tryStart_sends : words i b = (Dma.Walk.mk nodes ended).words ∧
    (tryStart i b).value.2 =
      (await i (Dma.Walk.mk nodes ended).words (listed i (triggered i b) ⟨nodes, ended⟩)).value.2 ∧
    (tryStart i b).record.acts = (sendNodes i nodes (triggered i b)).record.acts ∧
    (tryStart i b).record.notices = (sendNodes i nodes (triggered i b)).record.notices ++
      if ended then [] else [.endlessList i] := by
  have hchannel := channel_triggered i b
  have hfrom' : ((triggered i b).dma.channel i).chcr.fromRam := by
    rw [hchannel]
    exact (Dma.ChannelControl.fromRam_setTrigger _ _).trans hfrom
  have hstart : Dma.Walk.start (triggered i b).ram ((triggered i b).dma.channel i).start =
      ⟨nodes, ended⟩ := by
    rw [hchannel]
    exact hw
  obtain ⟨hvalue, hacts, hnotices⟩ := list_walked hfrom' hstart
  have hlaunch : launch i b = list i (triggered i b) := launch_triggered hsync
  refine ⟨?_, ?_, ?_, ?_⟩
  · simp only [words]
    rw [hlaunch, hvalue]
  · rw [tryStart_ready hready]
    show (await i (launch i b).value.1 (launch i b).value.2).value.2 = _
    rw [hlaunch, hvalue]
  · rw [tryStart_ready hready, ← hacts, ← hlaunch]
    exact List.append_nil _
  · rw [tryStart_ready hready, ← hnotices, ← hlaunch]
    exact List.append_nil _

theorem tryStart_walked : Walked i nodes ended b (tryStart i b).record (tryStart i b).value.2 := by
  have hcount : (Dma.Walk.mk nodes ended).words.toNat = Dma.Walk.size nodes := by
    have hexact := exactArithmetic.words b.ram (b.dma.channel i)
    rwa [hw] at hexact
  obtain ⟨hram, -, hquiet⟩ := sendNodes_frame i nodes (triggered i b)
  obtain ⟨hwords, hstate, hacts, hnotices⟩ := tryStart_sends hready hsync hfrom hw
  refine ⟨by rw [hwords, hcount], countdown_tryStart hready, ?_, fun write h => ?_, fun h => ?_, ?_, ?_⟩
  · rw [hstate, channel_await, channel_listed]
    rfl
  · have hsent := sendNodes_bound (b := triggered i b) nodes h
    rw [hacts, hstate]
    exact hsent
  · have hsent := sendNodes_unbound (b := triggered i b) nodes h
    rw [hacts, hstate]
    exact hsent
  · rw [hnotices, List.mem_append, or_iff_right hquiet]
    cases ended <;> simp
  · rw [hstate]
    exact hram

end Walk

/-- A transfer along a linked list visits exactly the nodes of the list, in order, where the list ends,
and hands those to the writer that have a payload; and it gives up on a list that does not end once it
has visited as many nodes as RAM has words. -/
theorem tryStart_list (b : Bus δ) (i : Fin 7) (hready : ready i b)
    (hsync : (b.dma.channel i).chcr.sync = 2) (hfrom : (b.dma.channel i).chcr.fromRam) :
    (∀ m, Dma.Ends b.ram (b.dma.channel i).start m →
      Walked i ((List.range (m + 1)).map (Dma.chain b.ram (b.dma.channel i).start)) true b
        (tryStart i b).record (tryStart i b).value.2) ∧
    ((∀ k, ¬(Dma.chain b.ram (b.dma.channel i).start k).last) →
      Walked i ((List.range Dma.maxNodes).map (Dma.chain b.ram (b.dma.channel i).start)) false b
        (tryStart i b).record (tryStart i b).value.2) := by
  exact ⟨fun m hm => tryStart_walked hready hsync hfrom (Dma.Walk.start_ended hm),
    fun hend => tryStart_walked hready hsync hfrom (Dma.Walk.start_endless hend)⟩

def sending (i : Fin 7) (madr : UInt32) (b : Bus δ) : Bus δ :=
  { b with dma := { b.dma.setChannel i { madr, chcr := ⟨0x01000401⟩ } with dpcr := 0x08888888 } }

/-- A list whose second node lies in the payload of the first, and a channel that is set up to send it. -/
def listing (i : Fin 7) : Bus (List UInt32) :=
  let b := (Machine.create {} Gte.inert {} (Device.absent (List UInt32)) []).bus
  sending i 0x800103 { b with
    ram := ((b.ram.setWord 0x100 0x02000104).setWord 0x104 0x300).setWord 0x300 0x01ffffff
    dma := (b.dma.bindWriter i fun addr _ ram sent => sent ++ [ram.word addr]).value }

set_option maxRecDepth 10000 in
theorem tryStart_list_listing : ready 2 (listing 2) ∧ ((listing 2).dma.channel 2).chcr.sync = 2 ∧
    ((listing 2).dma.channel 2).chcr.fromRam ∧
    Dma.Ends (listing 2).ram ((listing 2).dma.channel 2).start 2 ∧
    (tryStart 2 (listing 2)).record.acts = [.dmaWrite 2 0x104 2, .dmaWrite 2 0x304 1] ∧
    (tryStart 2 (listing 2)).value.2.outside = [0x300, 0] ∧ (words 2 (listing 2)).toNat = 6 := by
  have hready : ready 2 (listing 2) := by decide +kernel
  have hsync : ((listing 2).dma.channel 2).chcr.sync = 2 := by decide +kernel
  have hfrom : ((listing 2).dma.channel 2).chcr.fromRam := by decide +kernel
  have hends : Dma.Ends (listing 2).ram ((listing 2).dma.channel 2).start 2 :=
    ⟨by decide +kernel, by decide +kernel⟩
  have h := (tryStart_list (listing 2) 2 hready hsync hfrom).1 2 hends
  obtain ⟨hacts, houtside⟩ := h.handed _ rfl
  refine ⟨hready, hsync, hfrom, hends, hacts.trans ?_, houtside.trans ?_, h.words.trans ?_⟩
  · decide +kernel
  · decide +kernel
  · decide +kernel

end Bus
end R3000
