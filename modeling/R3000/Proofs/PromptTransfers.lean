import R3000.Proofs.CachedWords
import R3000.Proofs.DmaInvariants

/-! # Transfers start as soon as they can

A channel that is armed and enabled is in flight. What arms or enables one is a store to a register of the
controller, and that store tries each channel that it may have armed: those that can start run, once each
and in order, before it returns. Completion takes the start bits down, so nothing starts by itself. -/
namespace R3000

namespace Dma
variable {cycles : UInt32} {ch : Channel}

namespace Controller
variable {δ : Type} {c : Controller δ}

def wants (c : Controller δ) (i : Fin 7) : Bool := (c.channel i).chcr.armed && c.enabled i

/-- No transfer that is wanted waits for its start, and every countdown has a cycle to go. -/
structure Prompt (c : Controller δ) : Prop where
  inFlight : ∀ i, c.wants i → (c.channel i).inFlight
  counts : ∀ i r, (c.channel i).countdown = some r → 1 ≤ r

/-- Only channels and enables matter. -/
theorem Prompt.congr {δ' : Type} {d : Controller δ'} (h : c.Prompt) (hc : d.channels = c.channels)
    (hd : d.dpcr = c.dpcr) : d.Prompt := by
  have hchannel : ∀ i, d.channel i = c.channel i := fun i => by simp only [channel, hc]
  refine ⟨fun i hi => ?_, fun i r hr => h.counts i r (hchannel i ▸ hr)⟩
  rw [hchannel]
  refine h.inFlight i ?_
  simp only [wants, enabled] at *
  rwa [hchannel, hd] at hi

theorem prompt_idle (h : c.channels = Vector.replicate 7 {}) : c.Prompt := by
  have hchannel : ∀ i, c.channel i = {} := fun i => by simp [channel, h]
  refine ⟨fun i hi => ?_, fun i r hr => ?_⟩
  · simp only [wants] at hi
    rw [hchannel, show (ChannelControl.armed {}) = false by decide] at hi
    cases hi
  · rw [hchannel] at hr
    cases hr

/-- Time takes a channel out of flight only as it takes its start bits down. -/
theorem Prompt.later (h : c.Prompt) (cycles : UInt32) : (c.later cycles).Prompt := by
  refine ⟨fun i hi => ?_, fun i r hr => ?_⟩
  · simp only [wants, enabled] at hi
    rw [channel_later, dpcr_later] at hi
    rw [channel_later]
    cases hcount : (c.channel i).countdown with
    | none =>
      rw [Channel.later_none hcount] at hi ⊢
      exact h.inFlight i hi
    | some q =>
      by_cases hlt : cycles < q
      · rw [Channel.later_of_lt hcount hlt]
        rfl
      · rw [Channel.later_of_not_lt hcount hlt] at hi
        simp only [ChannelControl.armed] at hi
        rw [Channel.busy_finished] at hi
        cases hi
  · rw [channel_later] at hr
    cases hcount : (c.channel i).countdown with
    | none =>
      rw [Channel.later_none hcount, hcount] at hr
      cases hr
    | some q =>
      by_cases hlt : cycles < q
      · rw [Channel.later_of_lt hcount hlt] at hr
        cases hr
        rw [UInt32.le_iff_toNat_le, UInt32.toNat_sub_of_le _ _ (UInt32.le_of_lt hlt)]
        rw [UInt32.lt_iff_toNat_lt] at hlt
        exact Nat.sub_pos_of_lt hlt
      · rw [Channel.later_of_not_lt hcount hlt] at hr
        cases hr

end Controller
end Dma

namespace Bus
variable {δ : Type} {b t : Bus δ} {i n : Fin 7}

def run (i : Fin 7) : Bus.Op δ Unit := launch i >>= await i

section Hauls

/-- What a transfer leaves outside the registers of its channel. -/
structure Haul (δ : Type) where
  acts : List Act
  ram : MainRam
  outside : δ

/-- One call of the writer of a channel, with words of RAM, or of its reader, for such words. -/
def called (i : Fin 7) (fromRam : Bool) (addr len : UInt32) (b : Bus δ) : Haul δ :=
  if fromRam then
    match b.dma.writer? i with
    | some write => ⟨[.dmaWrite i addr len], b.ram, write addr len b.ram b.outside⟩
    | none => ⟨[], b.ram, b.outside⟩
  else
    match b.dma.reader? i with
    | some read =>
      let (ram, outside) := read addr len b.ram b.outside
      ⟨[.dmaRead i addr len], ram, outside⟩
    | none => ⟨[], b.ram, b.outside⟩

/-- One call of the writer for each node that has a payload. -/
def calledAlong (i : Fin 7) (nodes : List Dma.Node) (b : Bus δ) : Haul δ :=
  let loaded := nodes.filter fun n => n.len ≠ 0
  match b.dma.writer? i with
  | some write => ⟨loaded.map fun n => .dmaWrite i n.payload n.len, b.ram,
      loaded.foldl (fun o n => write n.payload n.len b.ram o) b.outside⟩
  | none => ⟨[], b.ram, b.outside⟩

/-- What a transfer leaves that is synchronized in this way: a burst moves its words from the start, or
clears a table there; blocks are moved in one; and a list is walked. -/
def haul (i : Fin 7) (sync : Nat) (b : Bus δ) : Haul δ :=
  let ch := b.dma.channel i
  match sync with
  | 0 =>
    if i = Dma.otc ∧ (b.dma.reader? i).isNone then
      ⟨[], Dma.clearTable ch.burst.toNat ch.start b.ram, b.outside⟩
    else called i ch.chcr.fromRam ch.start ch.burst b
  | 1 => called i ch.chcr.fromRam ch.start ch.blocks b
  | 2 =>
    if ch.chcr.fromRam then calledAlong i (Dma.Walk.start b.ram ch.start).nodes b
    else ⟨[], b.ram, b.outside⟩
  | _ => ⟨[], b.ram, b.outside⟩

def Hauls {α : Type} (x : Bus.Op δ α) (b : Bus δ) (h : Haul δ) : Prop :=
  (x b).record.acts = h.acts ∧ (x b).value.2.ram = h.ram ∧ (x b).value.2.outside = h.outside

namespace Hauls
variable {α β : Type} {x : Bus.Op δ α} {h : Haul δ}

theorem get_bind {f : Bus δ → Bus.Op δ β} (hf : Hauls (f b) b h) : Hauls (get >>= f) b h := hf

theorem note_bind {n : Notice} (hx : Hauls x b h) : Hauls (do note n; x) b h := hx

theorem pure (a : α) : Hauls (δ := δ) (pure a) b ⟨[], b.ram, b.outside⟩ := ⟨rfl, rfl, rfl⟩

/-- What comes after a transfer moves no data. -/
theorem bind {f : α → Bus.Op δ β} (hx : Hauls x b h)
    (hf : ∀ a t, Hauls (f a) t ⟨[], t.ram, t.outside⟩) : Hauls (x >>= f) b h := by
  obtain ⟨hacts, hram, houtside⟩ := hx
  obtain ⟨hacts', hram', houtside'⟩ := hf (x b).value.1 (x b).value.2
  refine ⟨?_, hram'.trans hram, houtside'.trans houtside⟩
  show (x b).record.acts ++ (f (x b).value.1 (x b).value.2).record.acts = _
  rw [hacts, hacts', List.append_nil]

end Hauls

theorem move_hauls (i : Fin 7) (fromRam : Bool) (addr len : UInt32) (b : Bus δ) :
    Hauls (move i fromRam addr len) b (called i fromRam addr len b) := by
  cases fromRam with
  | true =>
    refine .get_bind ?_
    simp only [called, if_pos]
    cases b.dma.writer? i <;> exact ⟨rfl, rfl, rfl⟩
  | false =>
    refine .get_bind ?_
    simp only [called, Bool.false_eq_true, if_false]
    cases b.dma.reader? i <;> exact ⟨rfl, rfl, rfl⟩

theorem burst_hauls (i : Fin 7) (b : Bus δ) : Hauls (burst i) b (haul i 0 b) := by
  refine .get_bind ?_
  simp only [haul]
  show Hauls (if _ then _ else _) b (if _ then _ else _)
  split
  · exact ⟨rfl, rfl, rfl⟩
  split
  · exact .note_bind (.bind (move_hauls ..) fun _ _ => .pure _)
  · exact .bind (move_hauls ..) fun _ _ => .pure _

theorem sendNodes_hauls (i : Fin 7) (nodes : List Dma.Node) (b : Bus δ) :
    (sendNodes i nodes b).record.acts = (calledAlong i nodes b).acts ∧
      (sendNodes i nodes b).value.ram = (calledAlong i nodes b).ram ∧
      (sendNodes i nodes b).value.outside = (calledAlong i nodes b).outside := by
  simp only [sendNodes, calledAlong]
  cases b.dma.writer? i <;> exact ⟨rfl, rfl, rfl⟩

theorem list_hauls (i : Fin 7) (b : Bus δ) : Hauls (list i) b (haul i 2 b) := by
  refine .get_bind ?_
  simp only [haul]
  show Hauls (if _ then _ else _) b (if _ then _ else _)
  split
  · generalize Dma.Walk.start b.ram (b.dma.channel i).start = walk
    obtain ⟨hacts, hram, houtside⟩ := sendNodes_hauls i walk.nodes b
    cases walk.ended with
    | true | false =>
      exact ⟨(List.append_nil _).trans ((List.append_nil _).trans hacts), hram, houtside⟩
  · exact .note_bind (.pure _)

theorem transfer_hauls (i : Fin 7) (sync : UInt32) (b : Bus δ) :
    Hauls (transfer i sync) b (haul i sync.toNat b) := by
  simp only [transfer]
  generalize sync.toNat = kind
  obtain rfl | rfl | rfl | hkind : kind = 0 ∨ kind = 1 ∨ kind = 2 ∨ 3 ≤ kind := by omega
  · exact burst_hauls i b
  · exact .get_bind (.bind (move_hauls ..) fun _ _ => ⟨rfl, rfl, rfl⟩)
  · exact list_hauls i b
  · obtain ⟨k, rfl⟩ := Nat.exists_eq_add_of_le' hkind
    exact .note_bind (.pure _)

/-- The table channel clears a table where it has no reader. -/
theorem haul_table (h : b.dma.reader? Dma.otc = none) : haul Dma.otc 0 b =
    ⟨[], Dma.clearTable (b.dma.channel Dma.otc).burst.toNat (b.dma.channel Dma.otc).start b.ram, b.outside⟩ :=
  if_pos ⟨rfl, Option.isNone_iff_eq_none.mpr h⟩

theorem haul_triggered (i : Fin 7) (sync : Nat) (b : Bus δ) : haul i sync (triggered i b) = haul i sync b := by
  simp only [haul]
  rw [channel_triggered]
  simp only [Dma.ChannelControl.fromRam_setTrigger]
  rfl

/-- A channel leaves what its registers tell, as they are when its transfer is run. -/
theorem run_hauls (i : Fin 7) (b : Bus δ) :
    Hauls (run i) b (haul i (b.dma.channel i).chcr.sync.toNat b) := by
  have htransfer := transfer_hauls i (b.dma.channel i).chcr.sync (triggered i b)
  rw [haul_triggered] at htransfer
  exact .bind (.get_bind htransfer) fun _ _ => ⟨rfl, rfl, rfl⟩

end Hauls

/-- To try some channels is to run those of them that are ready, since none of them makes or keeps
another one ready. -/
theorem forM_tryStart {l : List (Fin 7)} (hl : l.Nodup) (b : Bus δ) :
    l.forM tryStart b = (l.filter (ready · b)).forM run b := by
  induction l generalizing b with
  | nil => rfl
  | cons i l ih =>
    obtain ⟨hi, hl⟩ := List.nodup_cons.mp hl
    have hrest := ih hl (tryStart i b).value.2
    have hready : ∀ j ∈ l, ready j (tryStart i b).value.2 = ready j b := by
      intro j hj
      have htry : Transferred i b _ _ := tryStart_transfers i
      simp only [ready, Dma.Controller.enabled]
      rw [htry.channel j (ne_of_mem_of_not_mem hj hi), htry.dpcr]
    rw [List.filter_congr hready] at hrest
    have hcons : (i :: l).forM tryStart b = (tryStart i >>= fun _ => l.forM tryStart) b := rfl
    have hstep : ∀ x : Bus.Op δ Unit, tryStart i b = x b → (tryStart i >>= fun _ => l.forM tryStart) b =
        (x >>= fun _ => (l.filter (ready · b)).forM run) b := by
      intro x hx
      refine Reported.eq_of ?_ ?_
      · show (l.forM tryStart (tryStart i b).value.2).value = _
        rw [hrest, hx]
        rfl
      · show (tryStart i b).record ++ (l.forM tryStart (tryStart i b).value.2).record = _
        rw [hrest, hx]
        rfl
    rw [hcons]
    cases h : ready i b with
    | true =>
      have hfilter : (i :: l).filter (ready · b) = i :: l.filter (ready · b) := List.filter_cons_of_pos h
      rw [hfilter, hstep (run i) (tryStart_ready h)]
      rfl
    | false =>
      have hfilter : (i :: l).filter (ready · b) = l.filter (ready · b) :=
        List.filter_cons_of_neg (ne_true_of_eq_false h)
      rw [hfilter, hstep (pure ()) (tryStart_passes h), pure_bind]

/-- A store tries all channels, none or one. -/
theorem tries_cases (offset : UInt32) :
    tries offset = channels ∨ tries offset = [] ∨ ∃ i, tries offset = [i] := by
  simp only [tries]
  split
  · exact .inl rfl
  split
  · exact .inr (.inl rfl)
  split
  · exact .inr (.inr ⟨_, rfl⟩)
  · exact .inr (.inl rfl)

theorem nodup_tries (offset : UInt32) : (tries offset).Nodup := by
  obtain h | h | ⟨i, h⟩ := tries_cases offset <;> rw [h]
  · exact List.nodup_finRange 7
  · exact List.nodup_nil
  · exact List.pairwise_singleton _ _

/-- A store leaves a channel that it does not try as it is, and does not enable it. -/
theorem stored_beside {offset : UInt32} (h : n ∉ tries offset) (value : UInt32) (b : Bus δ) :
    (stored offset value b).dma.channel n = b.dma.channel n ∧
      (stored offset value b).dma.dpcr = b.dma.dpcr := by
  simp only [tries] at h
  unfold stored
  split
  · rw [if_pos ‹_›] at h
    exact absurd (List.mem_finRange n) h
  split
  · exact ⟨rfl, rfl⟩
  split
  · exact ⟨rfl, rfl⟩
  split
  · rw [if_neg ‹_›, if_neg (not_or.mpr ⟨‹_›, ‹_›⟩), dif_pos ‹_›] at h
    exact ⟨b.dma.channel_setChannel_of_ne (mt List.mem_singleton.mpr h) _, rfl⟩
  · exact ⟨rfl, rfl⟩

def starting (s : Bus δ) : List (Fin 7) := channels.filter (ready · s)

theorem ready_wants (i : Fin 7) (b : Bus δ) :
    ready i b = (b.dma.wants i && !(b.dma.channel i).inFlight) := rfl

/-- Of all channels those with a property are tried, if these are among the ones that are. -/
theorem filter_tries {p : Fin 7 → Bool} {offset : UInt32} (h : ∀ n, p n → n ∈ tries offset) :
    channels.filter p = (tries offset).filter p := by
  obtain ht | ht | ⟨i, ht⟩ := tries_cases offset <;> rw [ht] at h ⊢
  · exact List.filter_eq_nil_iff.mpr fun n _ hn => absurd (h n hn) List.not_mem_nil
  cases hi : p i with
  | true =>
    have hp : ∀ n ∈ channels, p n = (n == i) := by
      intro n _
      by_cases hn : n = i
      · subst hn
        simp [hi]
      · rw [beq_eq_false_iff_ne.mpr hn]
        exact Bool.eq_false_iff.mpr fun hp => hn (List.mem_singleton.mp (h n hp))
    have hcount : channels.count i = 1 :=
      (List.nodup_finRange 7).count.trans (if_pos (List.mem_finRange i))
    rw [List.filter_congr hp, List.filter_beq, hcount, List.filter_cons_of_pos hi]
    rfl
  | false =>
    rw [List.filter_cons_of_neg (ne_true_of_eq_false hi)]
    refine List.filter_eq_nil_iff.mpr fun n _ hn => ?_
    rw [List.mem_singleton.mp (h n hn), hi] at hn
    cases hn

/-- Where nothing waits, a store makes only channels ready that it then tries. -/
theorem tries_of_ready (h : b.dma.Prompt) {offset value : UInt32} (hn : ready n (stored offset value b)) :
    n ∈ tries offset := by
  refine Decidable.byContradiction fun hnot => ?_
  obtain ⟨hchannel, hdpcr⟩ := stored_beside hnot value b
  simp only [ready_wants, Dma.Controller.wants, Dma.Controller.enabled] at hn
  rw [hchannel, hdpcr] at hn
  obtain ⟨hwants, hidle⟩ := Bool.and_eq_true_iff.mp hn
  rw [h.inFlight n hwants] at hidle
  cases hidle

/-- So it runs the transfers of all channels that it makes ready, and no other. -/
theorem dmaWrite_runs (h : b.dma.Prompt) (offset value : UInt32) :
    (dmaWrite offset value b).record.acts =
        ((starting (stored offset value b)).forM run (stored offset value b)).record.acts ∧
      (dmaWrite offset value b).value.2 =
        ((starting (stored offset value b)).forM run (stored offset value b)).value.2 := by
  have hready : ∀ n, ready n (stored offset value b) → n ∈ tries offset := fun _ => tries_of_ready h
  have hwrite := dmaWrite_stored offset value b
  rw [forM_tryStart (nodup_tries offset), ← filter_tries hready] at hwrite
  exact hwrite

theorem started_of_ready {l : List (Fin 7)} (hn : n ∈ l) (h : ready n b) :
    ∃ w, (n, w) ∈ started l b := by
  induction l generalizing b with
  | nil => cases hn
  | cons i l ih =>
    by_cases hi : n = i
    · subst hi
      exact ⟨_, mem_started_cons.mpr (.inl ⟨rfl, h, rfl⟩)⟩
    · have htry : Transferred i b _ _ := tryStart_transfers i
      have hrest : ready n (tryStart i b).value.2 := by
        simp only [ready, Dma.Controller.enabled] at *
        rwa [htry.channel n hi, htry.dpcr]
      obtain ⟨w, hw⟩ := ih ((List.mem_cons.mp hn).resolve_left hi) hrest
      exact ⟨w, mem_started_cons.mpr (.inr hw)⟩

theorem prompt_dmaWrite (h : b.dma.Prompt) (offset value : UInt32) :
    (dmaWrite offset value b).value.2.dma.Prompt := by
  have htried := fun n => tried n (tries offset) (stored offset value b)
  rw [(dmaWrite_stored offset value b).2]
  refine ⟨fun n hn => ?_, fun n r hr => ?_⟩
  · by_cases hs : ∃ w, (n, w) ∈ started (tries offset) (stored offset value b)
    · obtain ⟨w, hw⟩ := hs
      exact inFlight_of_countdown ((htried n).started w hw)
    · -- not started, it was not ready: it was wanted, and so it must have been in flight
      have hsame := (htried n).kept (not_exists.mp hs)
      have hready : ready n (stored offset value b) = false :=
        Bool.eq_false_iff.mpr fun hready => hs (started_of_ready (tries_of_ready h hready) hready)
      simp only [Dma.Controller.wants, Dma.Controller.enabled] at hn
      rw [hsame, (htried n).dpcr] at hn
      rw [ready_wants] at hready
      simp only [Dma.Controller.wants, Dma.Controller.enabled] at hready
      rw [hn, Bool.true_and, Bool.not_eq_false'] at hready
      rw [hsame]
      exact hready
  · by_cases hs : ∃ w, (n, w) ∈ started (tries offset) (stored offset value b)
    · obtain ⟨w, hw⟩ := hs
      rw [(htried n).started w hw] at hr
      cases hr
      exact UInt32.le_iff_toNat_le.mpr (duration_pos w _)
    · rw [(htried n).kept (not_exists.mp hs), countdown_stored] at hr
      exact h.counts n r hr

/-- No transfer ever waits where none has been. -/
theorem lasting_prompt : Dma.Lasting fun _ c => c.Prompt where
  idle := Dma.Controller.prompt_idle
  congr h := h.congr
  later cycles h := h.later cycles
  store offset value h := prompt_dmaWrite h offset value

theorem update_prompting (cycles : UInt32) (h : b.dma.Prompt) : (update cycles b).value.2.dma.Prompt :=
  lasting_prompt.update h cycles

theorem carried_prompt : Carried fun b t : Bus δ => b.dma.Prompt → t.dma.Prompt := lasting_prompt.carried

end Bus

theorem Machine.Reachable.prompt {γ δ : Type} {m : Machine γ δ} (h : m.Reachable) : m.bus.dma.Prompt :=
  Bus.lasting_prompt.machine h

namespace Bus
variable {δ : Type} {b : Bus δ}

/-- The bus with a lane of a DMA register written, before any transfer runs. -/
def entered (reg value : UInt32) (w : Width) (b : Bus δ) : Bus δ :=
  stored (Lane.base reg) (Lane.insert (b.dma.read (Lane.base reg)).value value reg w) b

/-- What a store does about transfers before it returns. -/
structure Starts (addr value : UInt32) (w : Width) (b : Bus δ) : Prop where
  prompt : (write addr value w b).value.2.dma.Prompt
  /-- Into a register of the controller, it runs the transfers that are ready with that, one after the
  other, and nothing else. -/
  runs : ∀ reg, dmaRegister? addr = some reg →
    (write addr value w b).record.acts =
        ((starting (entered reg value w b)).forM run (entered reg value w b)).record.acts ∧
      (write addr value w b).value.2 =
        ((starting (entered reg value w b)).forM run (entered reg value w b)).value.2
  /-- Among these a channel is once, if it is wanted now and has been idle, and not at all otherwise. -/
  once : ∀ reg, dmaRegister? addr = some reg → ∀ n, (starting (entered reg value w b)).count n =
    if (entered reg value w b).dma.wants n ∧ ¬(b.dma.channel n).inFlight then 1 else 0
  elsewhere : dmaRegister? addr = none → (write addr value w b).value.2.dma = b.dma

theorem count_starting (n : Fin 7) (s : Bus δ) :
    (starting s).count n = if ready n s then 1 else 0 := by
  have hnodup : (starting s).Nodup := (List.nodup_finRange 7).filter _
  rw [hnodup.count]
  simp [starting, channels]

theorem starts_of_prompt (h : b.dma.Prompt) (addr value : UInt32) (w : Width) : Starts addr value w b := by
  refine ⟨lasting_prompt.write h addr value w, fun reg hreg => ?_, fun reg _ n => ?_, fun hreg =>
    write_elsewhere hreg value w b⟩
  · obtain ⟨hacts, hvalue⟩ := write_dma hreg value w b
    rw [hacts, hvalue]
    exact dmaWrite_runs h _ _
  · have hflight : ((entered reg value w b).dma.channel n).inFlight = (b.dma.channel n).inFlight := by
      simp only [Dma.Channel.inFlight, entered]
      rw [countdown_stored]
    rw [count_starting, ready_wants, hflight]
    simp

/-- In every state that a host can bring about, a channel that is armed and enabled is in flight with a
cycle or more to go; and a store that arms or enables an idle one runs its transfer, once, before it
returns. -/
theorem Reachable.starts_promptly (h : b.Reachable) :
    b.dma.Prompt ∧ ∀ addr value w, Starts addr value w b := by
  have hprompt : b.dma.Prompt := by
    induction h with
    | between hm => exact hm.prompt
    | @within _ m hm =>
      have hstep : Moves (Machine.carrying _ carried_prompt) Machine.step m := Machine.Carrying.step _
      exact hstep hm.prompt
    | update cycles _ ih => exact update_prompting cycles ih
  exact ⟨hprompt, starts_of_prompt hprompt⟩

/-- Arms channels 2 and 6 while no channel is enabled. -/
def armed : Machine Gte.Registers Unit :=
  (Machine.booting [0x3c08bf80, 0x3c091100, 0x35290001, 0xad0910a8, 0xad0910e8, 0x34090004, 0xad0910e4]
    (by decide)).steps 7

theorem reachable_armed : armed.bus.Reachable :=
  .between (.steps 7 (Machine.reachable_booting _ _))

/-- The bus once all channels have been enabled and the first of them has run. -/
def firstRan (i : Fin 7) : Bus Unit := (run i (entered 0x70 0x08000800 .word armed.bus)).value.2

set_option maxRecDepth 10000 in
theorem starts_promptly_armed : armed.bus.Reachable ∧
    (armed.bus.dma.channel 2).chcr.armed = true ∧ (armed.bus.dma.channel 6).chcr.armed = true ∧
    starting (entered 0x70 0x08000800 .word armed.bus) = [2, 6] ∧
    (write 0x1f8010f0 0x08000800 .word armed.bus).value.2 =
      (([2, 6] : List (Fin 7)).forM run (entered 0x70 0x08000800 .word armed.bus)).value.2 ∧
    (write 0x1f8010f0 0x08000800 .word armed.bus).value.2.ram.word 0 = 0x1ffffc ∧
    (write 0x1f8010f0 0x08000800 .word armed.bus).value.2.ram.word 0x1ffffc = 0x1ffff8 ∧
    (write 0x1f8010f0 0x08000800 .word armed.bus).value.2.ram.word 0x1ffff8 = 0x1ffff4 ∧
    (write 0x1f8010f0 0x08000800 .word armed.bus).value.2.ram.word 0x1ffff4 = 0xffffff := by
  have hstarting : starting (entered 0x70 0x08000800 .word armed.bus) = [2, 6] := by decide +kernel
  have h := ((reachable_armed.starts_promptly.2 0x1f8010f0 0x08000800 .word).runs 0x70 (by decide)).2
  rw [hstarting] at h
  -- channel 6 has no reader, and clears four entries from address 0 down
  have hsync : ((firstRan 2).dma.channel Dma.otc).chcr.sync.toNat = 0 := by decide +kernel
  have hreader : (firstRan 2).dma.reader? Dma.otc = none := by
    rw [← Option.isNone_iff_eq_none]
    decide +kernel
  have hlen : ((firstRan 2).dma.channel Dma.otc).burst.toNat = 4 := by decide +kernel
  have hstart : ((firstRan 2).dma.channel Dma.otc).start = 0 := by decide +kernel
  have hrun : (run Dma.otc (firstRan 2)).value.2.ram = _ := (run_hauls Dma.otc (firstRan 2)).2.1
  rw [hsync, haul_table hreader, hlen, hstart] at hrun
  have hram : (write 0x1f8010f0 0x08000800 .word armed.bus).value.2.ram = Dma.clearTable 4 0 (firstRan 2).ram :=
    (congrArg Bus.ram h).trans hrun
  refine ⟨reachable_armed, by decide +kernel, by decide +kernel, hstarting, h, ?_⟩
  simp only [hram, Dma.clearTable, MainRam.word_setWord]
  exact ⟨rfl, rfl, rfl, rfl⟩

end Bus
end R3000
