import R3000.Proofs.DmaReach
import R3000.Proofs.OrderingTables

/-! # The addresses that peers are given

A transfer begins at a word of RAM, and the nodes of a list lie at words of RAM, since the addresses of both
are masked. That of the payload behind a header is not masked once more: the payload of a node in the last
word of RAM begins right behind RAM. No other call of a peer names an address outside. -/
namespace R3000

namespace Dma

def InRam (addr : UInt32) : Prop := addr.toNat % 4 = 0 ∧ addr.toNat < ramSize

theorem inRam_start (ch : Channel) : InRam ch.start := (toNat_word ch.madr).symm

/-- Every node of a walk lies in RAM. -/
theorem Walk.inRam_start (ram : MainRam) (ch : Channel) : ∀ n ∈ (start ram ch.start).nodes, InRam n.addr :=
  forall_follow ram maxNodes (fun w => (toNat_word w).symm) (Dma.inRam_start ch) nofun

/-- The payload of a node in RAM begins in RAM, but for that of a node in the last word. -/
theorem InRam.payload {n : Node} (h : InRam n.addr) : n.payload.toNat = n.addr.toNat + 4 ∧
    (InRam n.payload ∨ n.addr.toNat + 4 = ramSize) := by
  obtain ⟨haligned, hlt⟩ := h
  simp only [ramSize] at hlt
  have hword : ramWord n.addr := by
    simp only [ramWord]
    omega
  have hpayload := Node.toNat_payload hword
  refine ⟨hpayload, ?_⟩
  simp only [InRam, ramSize]
  omega

end Dma

namespace Bus
variable {δ : Type} {b : Bus δ} {i : Fin 7} {P : Act → Prop}

def calling (P : Act → Prop) : Motion (Bus δ) where
  holds _ r _ := ∀ a ∈ r.acts, P a
  still _ _ := List.forall_mem_nil P
  trans h k := by
    intro a ha
    rw [Record.acts_append, List.mem_append] at ha
    exact ha.elim (h a) (k a)

/-- A peer of a channel is called with an address. -/
def Calls (i : Fin 7) (addr len : UInt32) (a : Act) : Prop :=
  a = .dmaRead i addr len ∨ a = .dmaWrite i addr len

theorem move_calls {addr len : UInt32} (h : ∀ a, Calls i addr len a → P a) (fromRam : Bool) :
    Moves (calling P) (move i fromRam addr len) b := by
  cases fromRam with
  | true =>
    refine .get_bind ?_
    split
    · exact List.forall_mem_singleton.mpr (h _ (.inr rfl))
    · exact .note _
  | false =>
    refine .get_bind ?_
    split
    · exact List.forall_mem_singleton.mpr (h _ (.inl rfl))
    · exact .note _

theorem sendNodes_calls {nodes : List Dma.Node}
    (h : (b.dma.writer? i).isSome → ∀ n ∈ nodes, n.len ≠ 0 → P (.dmaWrite i n.payload n.len)) :
    ∀ a ∈ (sendNodes i nodes b).record.acts, P a := by
  unfold sendNodes
  dsimp only
  split
  · rename_i hwriter
    intro a ha
    obtain ⟨n, hn, rfl⟩ := List.mem_map.mp ha
    obtain ⟨hmem, hlen⟩ := List.mem_filter.mp hn
    exact h (Option.isSome_of_eq_some hwriter) n hmem (of_decide_eq_true hlen)
  · exact List.forall_mem_nil P

/-- A transfer calls a peer where the address register points to, or along a list where the payloads of its
nodes begin. -/
theorem transfer_calls {sync : UInt32}
    (hstart : ∀ len a, Calls i (b.dma.channel i).start len a → P a)
    (hnodes : sync = 2 → (b.dma.channel i).chcr.fromRam → (b.dma.writer? i).isSome →
      ∀ n ∈ (Dma.Walk.start b.ram (b.dma.channel i).start).nodes, n.len ≠ 0 →
        P (.dmaWrite i n.payload n.len)) :
    Moves (calling P) (transfer i sync) b := by
  simp only [transfer]
  split
  · refine .get_bind ?_
    dsimp only
    split
    · -- a table is cleared without a peer
      exact List.forall_mem_nil P
    split
    · exact .quiet_bind (.note _) (.bind (move_calls (hstart _) _) fun _ _ _ => .pure _)
    · exact .bind (move_calls (hstart _) _) fun _ _ _ => .pure _
  · exact .get_bind (.bind (move_calls (hstart _) _) fun _ _ _ => List.forall_mem_nil P)
  · refine .get_bind ?_
    dsimp only
    split
    · -- the walk goes through all of RAM, so that it is named before anything looks into it
      have hsent := sendNodes_calls (b := b) (hnodes (UInt32.toNat_inj.mp ‹_›) ‹_›)
      generalize Dma.Walk.start b.ram (b.dma.channel i).start = walk at hsent
      refine .lift_bind hsent ?_
      split
      · exact .quiet_bind (.note _) (List.forall_mem_nil P)
      · exact List.forall_mem_nil P
    · exact .quiet_bind (.note _) (.pure _)
  · exact .quiet_bind (.note _) (.pure _)

/-- The list that a channel is about to send has a node in the last word of RAM, with a payload behind it. -/
structure Overruns (i : Fin 7) (b : Bus δ) (addr len : UInt32) : Prop where
  ready : ready i b
  sync : (b.dma.channel i).chcr.sync = 2
  fromRam : (b.dma.channel i).chcr.fromRam
  bound : (b.dma.writer? i).isSome
  behind : addr.toNat = ramSize
  loaded : len ≠ 0
  node : ∃ n ∈ (Dma.Walk.start b.ram (b.dma.channel i).start).nodes, n.addr.toNat + 4 = ramSize ∧ n.len = len

/-- A call of a peer of a channel as its transfer makes it. -/
def Addressed (i : Fin 7) (b : Bus δ) (a : Act) : Prop :=
  ∃ addr len, Calls i addr len a ∧ (Dma.InRam addr ∨ a = .dmaWrite i addr len ∧ Overruns i b addr len)

theorem tryStart_calls (i : Fin 7) (b : Bus δ) : Moves (calling (Addressed i b)) (tryStart i) b := by
  have hchannel := channel_triggered i b
  refine .get_bind ?_
  dsimp only
  split
  · rename_i hready
    refine .set_bind (List.forall_mem_nil _) (.bind ?_ fun _ _ _ => .modify (List.forall_mem_nil _))
    -- the trigger has been taken down, which neither the address nor the direction depends on
    refine transfer_calls (b := triggered i b) (fun len a hcall => ?_) fun hsync hfrom hbound n hn hlen => ?_
    · rw [hchannel] at hcall
      exact ⟨_, len, hcall, .inl (Dma.inRam_start (b.dma.channel i))⟩
    · rw [hchannel] at hfrom hn
      have hfrom' := (Dma.ChannelControl.fromRam_setTrigger _ _).symm.trans hfrom
      obtain ⟨hpayload, hin | hlast⟩ := (Dma.Walk.inRam_start _ _ n hn).payload
      · exact ⟨n.payload, n.len, .inr rfl, .inl hin⟩
      · exact ⟨n.payload, n.len, .inr rfl, .inr ⟨rfl, hready, hsync, hfrom', hbound,
          hpayload.trans hlast, hlen, n, hn, hlast, rfl⟩⟩
  · exact .pure _

theorem tryStart_overruns {addr len : UInt32} (h : Overruns i b addr len) :
    .dmaWrite i addr len ∈ (tryStart i b).record.acts := by
  obtain ⟨write, hwriter⟩ := Option.isSome_iff_exists.mp h.bound
  have hwriter' : (triggered i b).dma.writer? i = some write := hwriter
  obtain ⟨n, hn, hlast, rfl⟩ := h.node
  obtain ⟨hpayload, -⟩ := (Dma.Walk.inRam_start _ _ n hn).payload
  have haddr : addr = n.payload := UInt32.toNat_inj.mp (h.behind.trans (hpayload.trans hlast).symm)
  obtain ⟨-, -, hacts, -⟩ := tryStart_sends h.ready h.sync h.fromRam rfl
  rw [haddr, hacts, (sendNodes_bound _ hwriter').1]
  exact List.mem_map.mpr ⟨n, List.mem_filter.mpr ⟨hn, decide_eq_true h.loaded⟩, rfl⟩

/-- The channels of a list in order, each on the bus on which it is tried. -/
def trials : List (Fin 7) → Bus δ → List (Fin 7 × Bus δ)
  | [], _ => []
  | i :: l, b => (i, b) :: trials l (tryStart i b).value.2

/-- What comes of a list of trials comes of one of them. -/
theorem acts_forM_tryStart (l : List (Fin 7)) (b : Bus δ) : (l.forM tryStart b).record.acts =
    (trials l b).flatMap fun t => (tryStart t.1 t.2).record.acts := by
  induction l generalizing b with
  | nil => rfl
  | cons i l ih => exact congrArg _ (ih (tryStart i b).value.2)

/-- Whatever is written to a register of the controller, every call that comes of it is one of a peer of a
channel that is tried, and names a word of RAM, unless it hands over the payload of a node in the last word of
RAM; and every such payload is handed over. -/
theorem dmaWrite_addresses (b : Bus δ) (offset value : UInt32) :
    (∀ a ∈ (dmaWrite offset value b).record.acts,
      ∃ t ∈ trials (tries offset) (stored offset value b), Addressed t.1 t.2 a) ∧
    ∀ t ∈ trials (tries offset) (stored offset value b), ∀ addr len, Overruns t.1 t.2 addr len →
      .dmaWrite t.1 addr len ∈ (dmaWrite offset value b).record.acts := by
  rw [(dmaWrite_stored offset value b).1, acts_forM_tryStart]
  refine ⟨fun a ha => ?_, fun t ht addr len h => ?_⟩
  · obtain ⟨t, ht, hcall⟩ := List.mem_flatMap.mp ha
    exact ⟨t, ht, tryStart_calls t.1 t.2 a hcall⟩
  · exact List.mem_flatMap.mpr ⟨t, ht, tryStart_overruns h⟩

/-- A channel set up to send a list whose second node lies in the last word of RAM. -/
def brimming (i : Fin 7) : Bus Unit :=
  let b := (Machine.create {} Gte.inert {} (Device.absent Unit) ()).bus
  { b with
    ram := (b.ram.setWord 0x100 0x021ffffc).setWord 0x1ffffc 0x01ffffff
    dma := { (b.dma.bindWriter i fun _ _ _ o => o).value.setChannel i { madr := 0x100 } with dpcr := 0x800 } }

theorem word_brimming (i : Fin 7) (addr : UInt32) : (brimming i).ram.word addr =
    if MainRam.wordOffset addr = 0x1ffffc then 0x01ffffff
    else if MainRam.wordOffset addr = 0x100 then 0x021ffffc
    else (Machine.create {} Gte.inert {} (Device.absent Unit) ()).bus.ram.word addr := by
  simp only [brimming]
  rw [MainRam.word_setWord, MainRam.word_setWord]
  rfl

/-- The nodes of the list. -/
theorem walk_brimming (i : Fin 7) : Dma.Walk.start (brimming i).ram 0x100 =
    ⟨[⟨0x100, 0x021ffffc⟩, ⟨0x1ffffc, 0x01ffffff⟩], true⟩ := by
  have hfirst : Dma.chain (brimming i).ram 0x100 0 = ⟨0x100, 0x021ffffc⟩ := by
    simp only [Dma.chain, Dma.Node.read]
    rw [word_brimming, if_neg (by decide), if_pos (by decide)]
  have hsecond : Dma.chain (brimming i).ram 0x100 1 = ⟨0x1ffffc, 0x01ffffff⟩ := by
    rw [Dma.chain, hfirst]
    show Dma.Node.read (brimming i).ram 0x1ffffc = _
    simp only [Dma.Node.read]
    rw [word_brimming, if_pos (by decide)]
  have hends : Dma.Ends (brimming i).ram 0x100 1 := by
    refine ⟨?_, fun k hk => ?_⟩
    · rw [hsecond]
      decide
    · obtain rfl := Nat.lt_one_iff.mp hk
      rw [hfirst]
      decide
  have hwalk := Dma.Walk.start_ended (x := 0x100) hends
  exact hwalk.trans (congrArg (Dma.Walk.mk · true) (congrArg₂ (fun n m => [n, m]) hfirst hsecond))

theorem walk_stored_brimming : Dma.Walk.start (stored 0x28 0x01000401 (brimming 2)).ram
      ((stored 0x28 0x01000401 (brimming 2)).dma.channel 2).start =
    ⟨[⟨0x100, 0x021ffffc⟩, ⟨0x1ffffc, 0x01ffffff⟩], true⟩ := by
  have hram : (stored 0x28 0x01000401 (brimming 2)).ram = (brimming 2).ram := by
    rw [stored_frame]
  have hstart : ((stored 0x28 0x01000401 (brimming 2)).dma.channel 2).start = 0x100 := by decide +kernel
  rw [hram, hstart, walk_brimming]

theorem overruns_brimming : Overruns 2 (stored 0x28 0x01000401 (brimming 2)) 0x200000 1 where
  ready := by decide +kernel
  sync := by decide +kernel
  fromRam := by decide +kernel
  bound := by decide +kernel
  behind := by decide
  loaded := by decide
  node := by
    refine ⟨⟨0x1ffffc, 0x01ffffff⟩, ?_, by decide, by decide⟩
    rw [walk_stored_brimming]
    decide

theorem acts_brimming : (dmaWrite 0x28 0x01000401 (brimming 2)).record.acts =
    [.dmaWrite 2 0x104 2, .dmaWrite 2 0x200000 1] := by
  have h := overruns_brimming
  obtain ⟨-, -, hacts, -⟩ := tryStart_sends h.ready h.sync h.fromRam walk_stored_brimming
  have hwriter : (triggered 2 (stored 0x28 0x01000401 (brimming 2))).dma.writer? 2 =
      some fun _ _ _ o => o := rfl
  have htries : tries 0x28 = [2] := by decide +kernel
  have hone : ∀ b : Bus Unit, ([2].forM tryStart b).record.acts = (tryStart 2 b).record.acts :=
    fun _ => List.append_nil _
  rw [(dmaWrite_stored 0x28 0x01000401 (brimming 2)).1, htries, hone, hacts, (sendNodes_bound _ hwriter).1]
  decide

theorem dmaWrite_addresses_brimming :
    .dmaWrite 2 0x104 2 ∈ (dmaWrite 0x28 0x01000401 (brimming 2)).record.acts ∧
    Addressed 2 (stored 0x28 0x01000401 (brimming 2)) (.dmaWrite 2 0x104 2) ∧
    Overruns 2 (stored 0x28 0x01000401 (brimming 2)) 0x200000 1 ∧
    .dmaWrite 2 0x200000 1 ∈ (dmaWrite 0x28 0x01000401 (brimming 2)).record.acts := by
  obtain ⟨haddresses, hoverruns⟩ := dmaWrite_addresses (brimming 2) 0x28 0x01000401
  have htries : tries 0x28 = [2] := by decide +kernel
  rw [htries] at haddresses hoverruns
  have hmem : Act.dmaWrite 2 0x104 2 ∈ (dmaWrite 0x28 0x01000401 (brimming 2)).record.acts := by
    rw [acts_brimming]
    decide
  obtain ⟨t, ht, haddressed⟩ := haddresses _ hmem
  obtain rfl := List.mem_singleton.mp ht
  exact ⟨hmem, haddressed, overruns_brimming, hoverruns _ List.mem_cons_self _ _ overruns_brimming⟩

/-- The payload behind the last word of RAM is handed over at an address outside. -/
theorem payload_behind_ram : ¬∀ (b : Bus Unit) (offset value : UInt32) (i : Fin 7) (addr len : UInt32),
    ∀ a ∈ (dmaWrite offset value b).record.acts, Calls i addr len a → Dma.InRam addr := by
  intro h
  have hmem : Act.dmaWrite 2 0x200000 1 ∈ (dmaWrite 0x28 0x01000401 (brimming 2)).record.acts := by
    rw [acts_brimming]
    decide
  obtain ⟨-, hlt⟩ := h (brimming 2) 0x28 0x01000401 2 0x200000 1 _ hmem (.inr rfl)
  exact absurd hlt (by decide)

end Bus
end R3000
