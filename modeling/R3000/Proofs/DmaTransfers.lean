import R3000.Proofs.BusSafety
import R3000.Proofs.DmaTime

/-! # What a transfer leaves alone

A transfer goes as far as its own channel, RAM and the world outside, and asks no peer of another
channel. So of the channels that a write arms each starts on its own: one that is in flight is passed
over, and one that is started counts down from the words that it has moved. -/
namespace R3000

/-- A record in which neither peer of a channel is asked to move data. -/
def Record.Spares (n : Fin 7) (r : Record) : Prop :=
  ∀ addr len, Act.dmaRead n addr len ∉ r.acts ∧ Act.dmaWrite n addr len ∉ r.acts

namespace Record.Spares
variable {n i : Fin 7} {r q : Record}

theorem of_acts (h : r.acts = []) : r.Spares n := by
  intro addr len
  rw [h]
  exact ⟨List.not_mem_nil, List.not_mem_nil⟩

theorem append (hr : r.Spares n) (hq : q.Spares n) : (r ++ q).Spares n := by
  intro addr len
  rw [acts_append, List.mem_append, List.mem_append]
  exact ⟨not_or.mpr ⟨(hr addr len).1, (hq addr len).1⟩, not_or.mpr ⟨(hr addr len).2, (hq addr len).2⟩⟩

theorem congr (h : q.acts = r.acts) (hr : r.Spares n) : q.Spares n := by
  simp only [Spares]
  rw [h]
  exact hr

theorem dmaRead (h : n ≠ i) (addr len : UInt32) : Spares n { acts := [.dmaRead i addr len] } := by
  intro a l
  simp [h]

theorem dmaWrite (h : n ≠ i) (addr len : UInt32) : Spares n { acts := [.dmaWrite i addr len] } := by
  intro a l
  simp [h]

end Record.Spares

theorem Dma.ChannelControl.fromRam_setTrigger (c : ChannelControl) (on : Bool) :
    (c.setTrigger on).fromRam = c.fromRam :=
  (Word.bit_setBit c.word (by decide) (by decide) on).trans (if_neg (by decide))

namespace Dma.Controller
variable {δ : Type} {ctl : Controller δ}

@[simp] theorem channel_setChannel_self (ctl : Controller δ) (i : Fin 7) (ch : Channel) :
    (ctl.setChannel i ch).channel i = ch :=
  Vector.getElem_set_self i.isLt

theorem channel_setChannel_of_ne (ctl : Controller δ) {i j : Fin 7} (h : j ≠ i) (ch : Channel) :
    (ctl.setChannel i ch).channel j = ctl.channel j :=
  Vector.getElem_set_ne i.isLt j.isLt (Fin.val_ne_of_ne (Ne.symm h))

end Dma.Controller

namespace Bus
variable {δ : Type} {b t u : Bus δ} {r q : Record} {i n : Fin 7}

/-- How far a transfer of channel `i` goes. -/
structure Transferred (i : Fin 7) (b : Bus δ) (r : Record) (t : Bus δ) : Prop where
  channel : ∀ j, j ≠ i → t.dma.channel j = b.dma.channel j
  dpcr : t.dma.dpcr = b.dma.dpcr
  dicr : t.dma.dicr = b.dma.dicr
  wordCycles : t.dma.wordCycles = b.dma.wordCycles
  int : t.int = b.int
  spares : ∀ j, j ≠ i → r.Spares j

namespace Transferred

theorem trans (h : Transferred i b r t) (k : Transferred i t q u) : Transferred i b (r ++ q) u :=
  ⟨fun j hj => (k.channel j hj).trans (h.channel j hj), k.dpcr.trans h.dpcr, k.dicr.trans h.dicr,
    k.wordCycles.trans h.wordCycles, k.int.trans h.int, fun j hj => (h.spares j hj).append (k.spares j hj)⟩

/-- Whatever becomes of RAM and of the world outside. -/
theorem of_dma (hd : t.dma = b.dma) (hi : t.int = b.int) (hr : ∀ j, j ≠ i → r.Spares j) :
    Transferred i b r t :=
  ⟨fun j _ => by rw [hd], by rw [hd], by rw [hd], by rw [hd], hi, hr⟩

theorem setChannel (b : Bus δ) (i : Fin 7) (ch : Dma.Channel) :
    Transferred i b {} { b with dma := b.dma.setChannel i ch } :=
  ⟨fun _ hj => b.dma.channel_setChannel_of_ne hj ch, rfl, rfl, rfl, rfl, fun _ _ => .of_acts rfl⟩

end Transferred

def transferring (i : Fin 7) : Motion (Bus δ) where
  holds := Transferred i
  still _ _ := .of_dma rfl rfl fun _ _ => .of_acts rfl
  trans := .trans

theorem send_transfers (i : Fin 7) (addr len : UInt32) : Moves (transferring i) (send i addr len) b := by
  refine .get_bind ?_
  split
  · exact .of_dma rfl rfl fun j hj => .dmaWrite hj addr len
  · exact .note _

theorem receive_transfers (i : Fin 7) (addr len : UInt32) :
    Moves (transferring i) (receive i addr len) b := by
  refine .get_bind ?_
  split
  · exact .of_dma rfl rfl fun j hj => .dmaRead hj addr len
  · exact .note _

theorem move_transfers (i : Fin 7) (fromRam : Bool) (addr len : UInt32) :
    Moves (transferring i) (move i fromRam addr len) b := by
  cases fromRam with
  | true => exact send_transfers i addr len
  | false => exact receive_transfers i addr len

theorem burst_transfers (i : Fin 7) : Moves (transferring i) (burst i) b := by
  refine .get_bind ?_
  dsimp only
  split
  · exact .of_dma rfl rfl fun _ _ => .of_acts rfl
  split
  · exact .quiet_bind (.note _) (.bind (move_transfers _ _ _ _) fun _ _ _ => .pure _)
  · exact .bind (move_transfers _ _ _ _) fun _ _ _ => .pure _

theorem blocks_transfers (i : Fin 7) : Moves (transferring i) (blocks i) b :=
  .get_bind (.bind (move_transfers _ _ _ _) fun _ _ _ => .setChannel _ i _)

theorem sendNodes_spares (nodes : List Dma.Node) (b : Bus δ) (h : n ≠ i) :
    (sendNodes i nodes b).record.Spares n := by
  unfold sendNodes
  dsimp only
  split
  · intro addr len
    simp only [List.mem_map]
    refine ⟨?_, ?_⟩
    · rintro ⟨_, -, ⟨⟩⟩
    · rintro ⟨_, -, hn⟩
      exact h (by cases hn; rfl)
  · exact .of_acts rfl

theorem list_transfers (i : Fin 7) : Moves (transferring i) (list i) b := by
  refine .get_bind ?_
  dsimp only
  split
  · generalize Dma.Walk.start b.ram _ = walk
    obtain ⟨-, hdma⟩ := frame_sendNodes i walk.nodes b
    have hint : (sendNodes i walk.nodes b).value.int = b.int := by
      unfold sendNodes
      dsimp only
      split <;> rfl
    have hset : ∀ ch, (transferring i).holds b {}
        { (sendNodes i walk.nodes b).value with
          dma := (sendNodes i walk.nodes b).value.dma.setChannel i ch } := fun ch =>
      Transferred.trans (r := {}) (.of_dma hdma hint fun _ _ => .of_acts rfl) (.setChannel _ i ch)
    -- the nodes are recorded first, and the state that they leave is set last
    refine .lift_bind (.of_dma rfl rfl fun _ hj => sendNodes_spares walk.nodes b hj) ?_
    split
    · exact .quiet_bind (.note _) (hset _)
    · exact hset _
  · exact .quiet_bind (.note _) (.pure _)

theorem transfer_transfers (i : Fin 7) (sync : UInt32) :
    Moves (transferring i) (transfer i sync) b := by
  simp only [transfer]
  split
  · exact burst_transfers i
  · exact blocks_transfers i
  · exact list_transfers i
  · exact .quiet_bind (.note _) (.pure _)

def ready (i : Fin 7) (b : Bus δ) : Bool :=
  (b.dma.channel i).chcr.armed && b.dma.enabled i && !(b.dma.channel i).inFlight

/-- The transfer that a channel is set up for. -/
def launch (i : Fin 7) : Bus.Op δ UInt32 := do
  let b ← get
  let ch := b.dma.channel i
  set { b with dma := b.dma.setChannel i { ch with chcr := ch.chcr.setTrigger false } }
  transfer i ch.chcr.sync

/-- The bus on which the transfer of a channel runs: the trigger has been taken down. -/
def triggered (i : Fin 7) (b : Bus δ) : Bus δ :=
  let ch := b.dma.channel i
  { b with dma := b.dma.setChannel i { ch with chcr := ch.chcr.setTrigger false } }

theorem channel_triggered (i : Fin 7) (b : Bus δ) : (triggered i b).dma.channel i =
    { b.dma.channel i with chcr := (b.dma.channel i).chcr.setTrigger false } :=
  Dma.Controller.channel_setChannel_self ..

theorem launch_triggered {sync : UInt32} (h : (b.dma.channel i).chcr.sync = sync) :
    launch i b = transfer i sync (triggered i b) := by
  subst h
  rfl

def words (i : Fin 7) (b : Bus δ) : UInt32 := (launch i b).value.1

def duration (words wordCycles : UInt32) : UInt32 := Word.satMul (max words 1) (max wordCycles 1)

/-- Notes down how long a transfer takes. -/
def await (i : Fin 7) (words : UInt32) : Bus.Op δ Unit := modify fun b =>
  let countdown := some (duration words b.dma.wordCycles)
  { b with dma := b.dma.setChannel i { b.dma.channel i with countdown } }

theorem tryStart_ready (h : ready i b) : tryStart i b = (launch i >>= await i) b := by
  simp only [ready] at h
  simp only [tryStart]
  show (if _ then _ else _ : Bus.Op δ Unit) b = _
  rw [if_pos h]
  rfl

theorem tryStart_passes (h : ready i b = false) : tryStart i b = ⟨((), b), {}⟩ := by
  simp only [ready] at h
  simp only [tryStart]
  show (if _ then _ else _ : Bus.Op δ Unit) b = _
  rw [if_neg (by rw [h]; exact nofun)]
  rfl

theorem launch_transfers (i : Fin 7) : Moves (transferring i) (launch i) b :=
  .get_bind (.set_bind (.setChannel b i _) (transfer_transfers i _))

theorem tryStart_transfers (i : Fin 7) : Moves (transferring i) (tryStart i) b := by
  simp only [Moves]
  cases h : ready i b with
  | true =>
    rw [tryStart_ready h]
    exact Moves.bind (launch_transfers i) fun _ t _ => Transferred.setChannel t i _
  | false =>
    rw [tryStart_passes h]
    exact (transferring i).still b []

theorem countdown_tryStart (h : ready i b) : ((tryStart i b).value.2.dma.channel i).countdown =
    some (duration (words i b) b.dma.wordCycles) := by
  have hlaunch : Transferred i b _ _ := launch_transfers i
  rw [tryStart_ready h, ← hlaunch.wordCycles]
  exact congrArg _ (Dma.Controller.channel_setChannel_self ..)

theorem inFlight_of_countdown {ch : Dma.Channel} {d : UInt32} (h : ch.countdown = some d) :
    ch.inFlight = true := by
  simp only [Dma.Channel.inFlight]
  rw [h]
  rfl

theorem ready_inFlight (h : (b.dma.channel i).inFlight) : ready i b = false := by
  simp only [ready]
  rw [h, Bool.not_true, Bool.and_false]

/-- The transfers that start where some channels are tried in order, each with its words. -/
def started : List (Fin 7) → Bus δ → List (Fin 7 × UInt32)
  | [], _ => []
  | i :: l, b => (if ready i b then [(i, words i b)] else []) ++ started l (tryStart i b).value.2

theorem mem_started_cons {l : List (Fin 7)} {w : UInt32} : (n, w) ∈ started (i :: l) b ↔
    (n = i ∧ ready i b ∧ w = words i b) ∨ (n, w) ∈ started l (tryStart i b).value.2 := by
  simp only [started, List.mem_append]
  split <;> simp [*]

/-- What trying some channels leaves alone, and what it makes of channel `n`. -/
structure Tried (n : Fin 7) (starts : List (Fin 7 × UInt32)) (b : Bus δ) (r : Record) (t : Bus δ) :
    Prop where
  dpcr : t.dma.dpcr = b.dma.dpcr
  dicr : t.dma.dicr = b.dma.dicr
  wordCycles : t.dma.wordCycles = b.dma.wordCycles
  int : t.int = b.int
  /-- A channel in flight is passed over. -/
  passed : (b.dma.channel n).inFlight → t.dma.channel n = b.dma.channel n ∧ r.Spares n ∧
    ∀ w, (n, w) ∉ starts
  started : ∀ w, (n, w) ∈ starts →
    (t.dma.channel n).countdown = some (duration w b.dma.wordCycles)
  kept : (∀ w, (n, w) ∉ starts) → t.dma.channel n = b.dma.channel n

/-- A channel that is not the one to start next, or cannot start, is left as it is. -/
theorem tryStart_beside (h : ¬(n = i ∧ ready i b)) :
    (tryStart i b).value.2.dma.channel n = b.dma.channel n ∧ (tryStart i b).record.Spares n := by
  by_cases hn : n = i
  · have hready : ready i b = false := Bool.eq_false_iff.mpr fun hr => h ⟨hn, hr⟩
    rw [tryStart_passes hready]
    exact ⟨rfl, .of_acts rfl⟩
  · have htry : Transferred i b _ _ := tryStart_transfers i
    exact ⟨htry.channel n hn, htry.spares n hn⟩

theorem tried (n : Fin 7) (l : List (Fin 7)) (b : Bus δ) :
    Tried n (started l b) b (l.forM tryStart b).record (l.forM tryStart b).value.2 := by
  induction l generalizing b with
  | nil =>
    exact ⟨rfl, rfl, rfl, rfl, fun _ => ⟨rfl, .of_acts rfl, fun _ => List.not_mem_nil⟩,
      fun _ h => absurd h List.not_mem_nil, fun _ => rfl⟩
  | cons i l ih =>
    have htry : Transferred i b _ _ := tryStart_transfers i
    have hrest := ih (tryStart i b).value.2
    have hcycles := htry.wordCycles
    by_cases h : n = i ∧ ready i b
    · obtain ⟨rfl, hready⟩ := h
      have hcount := countdown_tryStart hready
      obtain ⟨hsame, -, hnone⟩ := hrest.passed (inFlight_of_countdown hcount)
      refine ⟨hrest.dpcr.trans htry.dpcr, hrest.dicr.trans htry.dicr, hrest.wordCycles.trans hcycles,
        hrest.int.trans htry.int, fun hf => ?_, fun w hw => ?_, fun hnot => ?_⟩
      · rw [ready_inFlight hf] at hready
        cases hready
      · obtain ⟨-, -, rfl⟩ | hw := mem_started_cons.mp hw
        · exact (congrArg _ hsame).trans hcount
        · exact absurd hw (hnone w)
      · exact absurd (mem_started_cons.mpr (.inl ⟨rfl, hready, rfl⟩)) (hnot _)
    · obtain ⟨hsame, hspares⟩ := tryStart_beside h
      have hmem : ∀ w, (n, w) ∈ started (i :: l) b ↔ (n, w) ∈ started l (tryStart i b).value.2 :=
        fun w => mem_started_cons.trans (or_iff_right fun hs => h ⟨hs.1, hs.2.1⟩)
      refine ⟨hrest.dpcr.trans htry.dpcr, hrest.dicr.trans htry.dicr, hrest.wordCycles.trans hcycles,
        hrest.int.trans htry.int, fun hf => ?_, fun w hw => ?_, fun hnot => ?_⟩
      · obtain ⟨hpassed, hspared, hnone⟩ := hrest.passed (hsame ▸ hf)
        exact ⟨hpassed.trans hsame, hspares.append hspared, fun w hw => hnone w ((hmem w).mp hw)⟩
      · rw [← hcycles]
        exact hrest.started w ((hmem w).mp hw)
      · exact (hrest.kept fun w hw => hnot w ((hmem w).mpr hw)).trans hsame

/-- The channels that a write to the register at an offset tries to start. -/
def tries (offset : UInt32) : List (Fin 7) :=
  if offset = 0x70 then channels
  else if offset = 0x74 ∨ 0x78 ≤ offset then []
  else if h : (offset >>> 4).toNat < 7 then [⟨(offset >>> 4).toNat, h⟩]
  else []

/-- The bus with the register at an offset written, before any channel is tried. -/
def stored (offset value : UInt32) (b : Bus δ) : Bus δ :=
  if offset = 0x70 then { b with dma := { b.dma with dpcr := value } }
  else if offset = 0x74 then
    let b := { b with dma := { b.dma with dicr := b.dma.dicr.write value } }
    b.withDma { b.dma with dicr := b.dma.dicr.settle }
  else if 0x78 ≤ offset then b
  else if h : (offset >>> 4).toNat < 7 then
    let i : Fin 7 := ⟨(offset >>> 4).toNat, h⟩
    let ch := (Dma.Controller.writeChannel i (b.dma.channel i) offset value).value
    { b with dma := b.dma.setChannel i ch }
  else b

/-- A write stores into its register, and then tries the channels that it may arm. -/
theorem dmaWrite_stored (offset value : UInt32) (b : Bus δ) :
    (dmaWrite offset value b).record.acts =
        ((tries offset).forM tryStart (stored offset value b)).record.acts ∧
      (dmaWrite offset value b).value.2 =
        ((tries offset).forM tryStart (stored offset value b)).value.2 := by
  unfold dmaWrite tries stored
  generalize (tryStart : Fin 7 → Bus.Op δ Unit) = f
  by_cases h0 : offset = 0x70
  · simp only [if_pos h0]
    exact ⟨rfl, rfl⟩
  simp only [if_neg h0]
  by_cases h4 : offset = 0x74
  · simp only [if_pos h4, if_pos (Or.inl h4)]
    have h := refreshDicr_leads { b with dma := { b.dma with dicr := b.dma.dicr.write value } }
    exact ⟨h.acts, h.state⟩
  simp only [if_neg h4]
  by_cases h8 : 0x78 ≤ offset
  · simp only [if_pos h8, if_pos (Or.inr h8)]
    exact ⟨rfl, rfl⟩
  simp only [if_neg h8, if_neg (not_or.mpr ⟨h4, h8⟩)]
  by_cases hi : (offset >>> 4).toNat < 7
  · simp only [dif_pos hi]
    generalize (⟨_, hi⟩ : Fin 7) = i
    have hacts := (Reported.Quiet.writeChannel i (b.dma.channel i) offset value).acts
    refine ⟨?_, rfl⟩
    show (((Dma.Controller.writeChannel i (b.dma.channel i) offset value).record.acts ++ [] : List Act)
      ++ (f i _).record.acts) = (f i _).record.acts ++ []
    rw [hacts, List.append_nil, List.append_nil, List.nil_append]
    rfl
  · simp only [dif_neg hi]
    exact ⟨rfl, rfl⟩

theorem countdown_writeChannel (i : Fin 7) (ch : Dma.Channel) (offset value : UInt32) :
    (Dma.Controller.writeChannel i ch offset value).value.countdown = ch.countdown := by
  simp only [Dma.Controller.writeChannel]
  split <;> rfl

theorem countdown_stored (n : Fin 7) (offset value : UInt32) (b : Bus δ) :
    ((stored offset value b).dma.channel n).countdown = (b.dma.channel n).countdown := by
  unfold stored
  split
  · rfl
  split
  · rfl
  split
  · rfl
  split
  · rename_i hi
    dsimp only
    generalize (⟨_, hi⟩ : Fin 7) = i
    by_cases hn : n = i
    · subst hn
      rw [Dma.Controller.channel_setChannel_self, countdown_writeChannel]
    · rw [Dma.Controller.channel_setChannel_of_ne _ hn]
  · rfl

theorem wordCycles_stored (offset value : UInt32) (b : Bus δ) :
    (stored offset value b).dma.wordCycles = b.dma.wordCycles := by
  unfold stored
  split
  · rfl
  split
  · rfl
  split
  · rfl
  split <;> rfl

end Bus
end R3000
