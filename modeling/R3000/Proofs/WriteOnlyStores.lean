import R3000.Proofs.DmaReach
import R3000.Proofs.PartialStores
import R3000.Proofs.SerialConsistency

/-! # Stores read nothing

A write of part of a register writes the rest of its word back as the machine holds it. So no store has the
device read, and none takes the character that waits in a serial port. What a store does that is not refused is
to write the bytes of its register, each to one lane. -/
namespace R3000

namespace Serial

def controlWord (i : Fin 2) : UInt32 := dataRegister i + 8

namespace Port
variable {p q s : Port} {reset : Prop}

structure SameReceiver (p q : Port) : Prop where
  data : q.rxData = p.rxData
  shift : q.rxShift = p.rxShift
  bits : q.rxBits = p.rxBits
  ready : q.status.has Status.rxReady = p.status.has Status.rxReady

theorem SameReceiver.refl (p : Port) : p.SameReceiver p := ⟨rfl, rfl, rfl, rfl⟩

theorem SameReceiver.trans (h : p.SameReceiver q) (k : q.SameReceiver s) : p.SameReceiver s :=
  ⟨k.data.trans h.data, k.shift.trans h.shift, k.bits.trans h.bits, k.ready.trans h.ready⟩

/-- A port keeps its receiver, unless it may be reset, and has the receiver of an idle port. -/
def KeepsReceiver (reset : Prop) (p q : Port) : Prop :=
  p.SameReceiver q ∨ reset ∧ ({} : Port).SameReceiver q

theorem KeepsReceiver.refl (p : Port) : p.KeepsReceiver reset p := .inl (.refl p)

theorem KeepsReceiver.trans (h : p.KeepsReceiver reset q) (k : q.KeepsReceiver reset s) :
    p.KeepsReceiver reset s := by
  obtain k | k := k
  · exact h.imp (·.trans k) fun h => ⟨h.1, h.2.trans k⟩
  · exact .inr k

theorem KeepsReceiver.mono {reset' : Prop} (h : p.KeepsReceiver reset q) (hr : reset → reset') :
    p.KeepsReceiver reset' q :=
  h.imp_right fun h => ⟨hr h.1, h.2⟩

theorem sameReceiver_kick (p : Port) : p.SameReceiver p.kick.value := by
  rw [value_kick]
  split
  · exact ⟨rfl, rfl, rfl, rfl⟩
  · exact .refl p

theorem sameReceiver_transmit (p : Port) (value : UInt8) : p.SameReceiver (p.transmit value).value := by
  have hset : p.SameReceiver { p with
      txData := value
      status := (p.status.set Status.txReady false).set Status.txEmpty false } := by
    refine ⟨rfl, rfl, rfl, ?_⟩
    simp +decide [Status.has_set]
  rw [value_transmit]
  exact hset.trans (sameReceiver_kick _)

theorem sameReceiver_acknowledge (p : Port) : p.SameReceiver p.acknowledge := by
  refine ⟨rfl, rfl, rfl, ?_⟩
  simp +decide [acknowledge, Status.has_set]

theorem sameReceiver_reset (p : Port) : ({} : Port).SameReceiver p.reset.port := by
  simp only [reset]
  rw [port_drive]
  refine ⟨rfl, rfl, rfl, ?_⟩
  simp +decide [syncInputs, Status.has_set]

theorem keepsReceiver_writeControl (p : Port) (value : UInt16) :
    p.KeepsReceiver (.serialReset ∈ (p.writeControl value).record.notices)
      (p.writeControl value).value.port := by
  simp only [Port.writeControl]
  split
  · exact .inr ⟨List.mem_cons_self, sameReceiver_reset p⟩
  left
  generalize hq : (if (⟨value⟩ : Control).iack then p.acknowledge else p) = q
  have hack : p.SameReceiver q := by
    subst hq
    split
    · exact sameReceiver_acknowledge p
    · exact .refl p
  generalize hr : Port.drive _ _ = r
  have hdrive : q.SameReceiver r.port := by
    subst hr
    rw [port_drive]
    exact ⟨rfl, rfl, rfl, rfl⟩
  have hdriven := hack.trans hdrive
  split
  · exact hdriven.trans (sameReceiver_kick _)
  split
  · exact hdriven
  · exact hdriven.trans ⟨rfl, rfl, rfl, rfl⟩

end Port

theorem Port.sameReceiver_ite {p q s : Port} {P : Prop} [Decidable P] (hq : p.SameReceiver q)
    (hs : p.SameReceiver s) : p.SameReceiver (if P then q else s) := by
  split
  · exact hq
  · exact hs

open Port in
theorem Controller.keepsReceiver_writePort (p : Port) (offset value : UInt32) (w : Width) :
    p.KeepsReceiver (offset >>> 2 = 2 ∧ .serialReset ∈ (writePort p offset value w).record.notices)
      (writePort p offset value w).value.port := by
  unfold writePort
  extract_lets index word mask low high
  split
  · exact .inl (sameReceiver_transmit p _)
  split
  · have hmode : p.SameReceiver (if low then p.writeMode word.toUInt16 else p) :=
      sameReceiver_ite ⟨rfl, rfl, rfl, rfl⟩ (.refl p)
    split
    · exact .trans (.inl hmode) ((keepsReceiver_writeControl _ _).mono fun h => ⟨‹_›, h⟩)
    · exact .inl hmode
  split
  · have hmisc : p.SameReceiver (if low then { p with misc := word.toUInt16 } else p) :=
      sameReceiver_ite ⟨rfl, rfl, rfl, rfl⟩ (.refl p)
    exact .inl (sameReceiver_ite (hmisc.trans ⟨rfl, rfl, rfl, rfl⟩) hmisc)
  · exact .refl p

end Serial

namespace Bus
variable {δ : Type} {b t u : Bus δ} {reset : Fin 2 → Prop}

def offSerial : Motion (Bus δ) where
  holds b _ t := t.serial = b.serial
  still _ _ := rfl
  trans h k := k.trans h

theorem tryStart_offSerial (i : Fin 7) : Moves offSerial (tryStart i) b := by
  have hreaches : Moves reaching (tryStart i) b := tryStart_reaches i
  exact (congrArg Bus.serial hreaches).trans rfl

theorem serial_stored (offset value : UInt32) (b : Bus δ) : (stored offset value b).serial = b.serial := by
  rw [stored_frame]

theorem serial_dmaWrite (offset value : UInt32) (b : Bus δ) :
    (dmaWrite offset value b).value.2.serial = b.serial := by
  have htries : Moves offSerial ((tries offset).forM tryStart) (stored offset value b) :=
    .forM (fun i _ => tryStart_offSerial i) _ _
  rw [(dmaWrite_stored offset value b).2]
  exact Eq.trans htries (serial_stored offset value b)

/-- The device is not read, and the ports keep their receivers, but one that may be reset, and is. -/
structure Unread (reset : Fin 2 → Prop) (b : Bus δ) (r : Record) (t : Bus δ) : Prop where
  device : ∀ addr w, Act.deviceRead addr w ∉ r.acts
  ports : ∀ i, (b.serial.port i).KeepsReceiver (reset i ∧ .serialReset ∈ r.notices) (t.serial.port i)

namespace Unread
variable {r q : Record}

theorem of_serial (hr : ∀ addr w, Act.deviceRead addr w ∉ r.acts) (hs : t.serial = b.serial) :
    Unread reset b r t :=
  ⟨hr, fun i => by rw [hs]; exact .refl _⟩

theorem of_acts (hr : r.acts = []) (hs : t.serial = b.serial) : Unread reset b r t :=
  of_serial (fun _ _ h => by rw [hr] at h; cases h) hs

theorem trans (h : Unread reset b r t) (k : Unread reset t q u) : Unread reset b (r ++ q) u :=
  ⟨fun addr w ha => (List.mem_append.mp ha).elim (h.device addr w) (k.device addr w),
    fun i => ((h.ports i).mono fun h => ⟨h.1, List.mem_append_left _ h.2⟩).trans
      ((k.ports i).mono fun k => ⟨k.1, List.mem_append_right _ k.2⟩)⟩

end Unread

def unread (reset : Fin 2 → Prop) : Motion (Bus δ) where
  holds := Unread reset
  still _ _ := .of_acts rfl rfl
  trans := .trans

theorem unread_mono {α : Type} {reset' : Fin 2 → Prop} {x : Bus.Op δ α} (h : Moves (unread reset) x b)
    (hr : ∀ i, reset i → reset' i) : Moves (unread reset') x b :=
  ⟨h.device, fun i => (h.ports i).mono fun h => ⟨hr i h.1, h.2⟩⟩

theorem controlWord_of_group {offset reg : UInt32} {i : Fin 2}
    (h : Group.of? offset = some (.serial i reg)) (hreg : reg >>> 2 = 2) :
    Lane.base (offset + ioBase) = Serial.controlWord i := by
  have hword : reg.toNat / 4 = 2 := by
    rw [← UInt32.toNat_inj, Word.toNat_shiftRight reg 2 4 rfl] at hreg
    exact hreg
  have hregister : ∀ i : Fin 2, (Serial.dataRegister i).toNat = 0x1f801040 + 16 * i.val ∧
      (Serial.controlWord i).toNat = 0x1f801048 + 16 * i.val := by
    decide
  obtain ⟨hdata, hcontrol⟩ := hregister i
  rw [register_of_group h, ← UInt32.toNat_inj, Lane.toNat_base, UInt32.toNat_add, hdata, hcontrol]
  omega

theorem notices_serialWrite {n : Notice} {i : Fin 2} {reg value : UInt32} {w : Width}
    (h : n ∈ (Serial.Controller.writePort (b.serial.port i) reg value w).record.notices) :
    n ∈ (serialWrite i reg value w b).record.notices := by
  have hwrite : n ∈ (b.serial.write i reg value w b.int b.outside).record.notices := by
    simp only [Serial.Controller.write]
    rw [dif_pos i.isLt]
    exact List.mem_append_left _ h
  exact List.mem_append_right _ (List.mem_append_left _ (List.mem_append_left _ hwrite))

/-- A write to registers sends no read out, and only one to a control register resets a port. -/
theorem writeGroup_unread {offset : UInt32} {g : Group} (hg : Group.of? offset = some g) (value : UInt32)
    (w : Width) : Moves (unread fun i => Lane.base (offset + ioBase) = Serial.controlWord i)
      (writeGroup offset value w g) b := by
  have hasks : (writeGroup offset value w g b).record.Asks fun _ => False := writeGroup_asks _ _ _ _
  refine ⟨fun addr w ha => hasks _ ha addr rfl, fun i => ?_⟩
  cases g with
  | memoryControl | ramSize | interrupt =>
    rw [show (writeGroup offset value w _ b).value.2.serial = b.serial from rfl]
    exact .refl _
  | serial port reg =>
    have hport : (writeGroup offset value w (.serial port reg) b).value.2.serial.port i =
        ((Serial.Operation.write port reg value w).reaction i (b.serial.port i)).port :=
      (run_reacted (.write port reg value w) b).ports i
    rw [hport]
    simp only [Serial.Operation.reaction]
    split
    · subst port
      refine (Serial.Controller.keepsReceiver_writePort _ _ _ _).mono fun h =>
        ⟨controlWord_of_group hg h.1, ?_⟩
      exact notices_serialWrite h.2
    · exact .refl _
  | dma reg =>
    have hserial : (writeGroup offset value w (.dma reg) b).value.2.serial = b.serial :=
      serial_dmaWrite _ _ b
    rw [hserial]
    exact .refl _

theorem write_unread (addr value : UInt32) (w : Width) :
    Moves (unread fun i => Lane.base addr = Serial.controlWord i) (write addr value w) b := by
  refine write_moves (fun _ _ hr => .of_acts hr rfl) (fun offset g hr hg => ?_) fun t =>
    .of_serial (fun _ _ ha => by cases List.mem_singleton.mp ha) rfl
  refine unread_mono (writeGroup_unread hg value w) fun i hi => ?_
  rw [← hi, ← Region.of_io hr, UInt32.sub_add_cancel]

end Bus

namespace Machine
variable {γ δ α β : Type} {m t u : Machine γ δ} {reset : Fin 2 → Prop} {vaddr : UInt32} {w : Bus.Write}
  {ws : List Bus.Write}

def unread (reset : Fin 2 → Prop) : Motion (Machine γ δ) where
  holds m r t := Bus.Unread reset m.bus r t.bus
  still _ _ := .of_acts rfl rfl
  trans := .trans

theorem unread_of_inward {r : Record} (h : Inward m r t) : (unread reset).holds m r t :=
  .of_serial (fun _ _ ha => by obtain ⟨_, ⟨⟩⟩ := h.acts _ ha) (congrArg Bus.serial h.bus)

theorem write_unread (hreset : ∀ i, Lane.base (translate vaddr) = Serial.controlWord i → reset i)
    (value : UInt32) (w : Width) : Moves (unread reset) (write vaddr value w) m :=
  write_moves (fun _ _ => .plain (.of_acts rfl rfl)) fun _ =>
    .onBus (Bus.unread_mono (Bus.write_unread _ _ _) hreset) fun _ _ h => h

/-- What a store instruction accesses is in the word of its effective address. -/
theorem base_stores {i : Instruction} {o : Operands} (he : i.effective? o = some (.store, vaddr)) :
    ∀ v ∈ i.stores o, Lane.base (translate v) = Lane.base (translate vaddr) := by
  have hpieces : ∀ {l : Fin 4} {pieces : List (UInt32 × Width)},
      (∀ p ∈ pieces, p ∈ Lane.upTo l ++ Lane.onward l) →
        ∀ v ∈ pieces.map fun p => Lane.base vaddr + p.1,
          Lane.base (translate v) = Lane.base (translate vaddr) := by
    intro l pieces hp
    rw [List.forall_mem_map]
    exact fun p hm => Bus.base_piece (hp p hm) vaddr
  match i with
  | .jump _ _ | .register _ _ | .immediate (.alu _) _ | .immediate (.branch _) _
  | .immediate (.load _) _ => cases he
  | .immediate (.store op) f =>
    cases he
    cases op with
    | sb | sh | sw => exact List.forall_mem_singleton.mpr rfl
    | swl => exact hpieces fun _ hm => List.mem_append_left _ hm
    | swr => exact hpieces fun _ hm => List.mem_append_right _ hm
  | .immediate (.lwc z) f =>
    simp only [Instruction.effective?] at he
    split at he <;> cases he
  | .immediate (.swc z) f =>
    simp only [Instruction.effective?, Option.ite_none_right_eq_some] at he
    obtain ⟨rfl, he⟩ := he
    cases he
    exact List.forall_mem_singleton.mpr rfl

theorem execute_unread {i : Instruction} (he : i.effective? m.operands = some (.store, vaddr)) (pc : UInt32) :
    Moves (unread fun p => Lane.base (translate vaddr) = Serial.controlWord p) (execute i pc) m := by
  have hloads : i.loads? m.operands = none := by
    match i with
    | .immediate (.load _) _ => cases he
    | .immediate (.lwc z) f =>
      simp only [Instruction.effective?] at he
      split at he <;> cases he
    | .jump _ _ | .register _ _ | .immediate (.alu _) _ | .immediate (.branch _) _
    | .immediate (.store _) _ | .immediate (.swc _) _ => rfl
  have hperform : Moves (unread fun p => Lane.base (translate vaddr) = Serial.controlWord p)
      (perform m.operands pc i) m := by
    refine perform_moves unread_of_inward (fun v w hl => ?_) (fun v hv value w t => ?_) pc fun f hi => ?_
    · rw [hloads] at hl
      cases hl
    · exact write_unread (fun p hp => (base_stores he v hv).symm.trans hp) value w
    · subst hi
      cases he
  have hfinish : Moves (unread fun p => Lane.base (translate vaddr) = Serial.controlWord p)
      (perform m.operands pc i >>= finish (i.decision pc m.cpu.regs.gpr) : Exec γ δ Unit) m := by
    refine .exec_bind hperform fun e t _ => ?_
    cases e <;> cases i.decision pc m.cpu.regs.gpr <;> exact Bus.Unread.of_acts rfl rfl
  simp only [Moves]
  rwa [execute_eq]

/-- Where the computation raises no exception, it has done these writes to the control word of the caches,
and has not used the bus. -/
def Configures (ws : List Bus.Write) (x : Exec γ δ α) (m : Machine γ δ) : Prop :=
  ∀ a t, (x m).value = (.ok a, t) → t.bus = m.bus ∧ (x m).record.acts = [] ∧
    t.cpu.caches.biu.word = ws.foldl (fun v w => w.into v) m.cpu.caches.biu.word

namespace Configures
variable {x : Exec γ δ α} {f : α → Exec γ δ β}

theorem pure (a : α) : Configures [] (Pure.pure a) m := fun b t h => by
  cases h
  exact ⟨rfl, rfl, rfl⟩

theorem cons (hx : Configures [w] x m) (hf : ∀ a t, (x m).value = (.ok a, t) → Configures ws (f a) t) :
    Configures (w :: ws) (x >>= f) m := by
  intro b u h
  obtain ⟨a, t, ht, hu⟩ := exec_bind_inv h
  obtain ⟨hbus, hacts, hword⟩ := hx a t ht
  obtain ⟨hbus', hacts', hword'⟩ := hf a t ht b u hu
  rw [exec_bind_ok ht]
  refine ⟨hbus'.trans hbus, ?_, ?_⟩
  · rw [Record.acts_append, hacts, hacts']
    rfl
  · rw [hword', hword]
    rfl

theorem write (hs : Segment.of vaddr = .kseg2) (value : UInt32) (w : Width) :
    Configures [⟨translate vaddr, value, w⟩] (Machine.write vaddr value w) m := by
  have hwrite : Machine.write (γ := γ) (δ := δ) vaddr value w m =
      (if onBiu (translate vaddr) then do
        let caches ← m.cpu.caches.setBiu (Lane.insert m.cpu.caches.biu.word value (translate vaddr) w)
        modifyCaches fun _ => caches
      else do
        note (.kseg2Store (translate vaddr))
        throw (Access.store.addressError vaddr) : Exec γ δ Unit) m := by
    show (if _ then _ else _ : Exec γ δ Unit) m = _
    rw [if_pos hs]
  have hset : ∀ v, (m.cpu.caches.setBiu v).value.biu.word = v := fun v => by
    unfold Caches.setBiu
    split <;> rfl
  intro a t h
  rw [hwrite] at h ⊢
  split at h
  · rw [if_pos ‹_›]
    cases h
    refine ⟨rfl, ?_, hset _⟩
    show ((Caches.setBiu _ _).record.acts ++ [] ++ []) ++ [] = []
    rw [(Reported.Quiet.setBiu _ _).acts]
    rfl
  · cases h

theorem pieces {pieces : List (UInt32 × Width)} (hs : Segment.of vaddr = .kseg2)
    (hp : ∀ p ∈ pieces, Lane.base (Lane.base vaddr + p.1) = Lane.base vaddr) (value : UInt32) :
    Configures (Bus.pieceWrites vaddr value pieces) (pieces.forM fun p =>
      Machine.write (Lane.base vaddr + p.1) (value >>> (8 * p.1)) p.2 : Exec γ δ PUnit) m := by
  induction pieces generalizing m with
  | nil => exact pure _
  | cons p pieces ih =>
    have hseg : Segment.of (Lane.base vaddr + p.1) = .kseg2 := by
      rw [← Segment.of_base, hp p List.mem_cons_self, Segment.of_base, hs]
    exact cons (write hseg _ _) fun _ _ _ => ih fun q hq => hp q (List.mem_cons_of_mem p hq)

theorem issue (hs : Segment.of vaddr = .kseg2) (op : Store) (value : UInt32) :
    Configures (op.writes vaddr value) (Machine.issue op vaddr value) m := by
  cases op with
  | sb | sh | sw => exact write hs value _
  | swl => exact pieces hs (fun _ hp => Lane.base_add_piece (List.mem_append_left _ hp) vaddr) _
  | swr => exact pieces hs (fun _ hp => Lane.base_add_piece (List.mem_append_right _ hp) vaddr) _

end Configures

/-- What a store has done that has raised no exception. Its writes are aligned, and carry to each lane that it
covers, and to no other, its byte of the register. Where they go to the bus, they are what is done there; in
the segment of the control word of the caches, that word has the bytes and the bus is not used. -/
structure Stored (op : Store) (vaddr value : UInt32) (m : Machine γ δ) (acts : List Act) (t : Machine γ δ) :
    Prop where
  spread : Bus.Spread (Lane.base (translate vaddr)) (op.covers (Lane.of vaddr)) (op.byte (Lane.of vaddr) value)
    (op.writes vaddr value)
  bus : m.Outbound vaddr → (Bus.writes (op.writes vaddr value) m.bus).value = (.ok (), t.bus) ∧
    acts = (Bus.writes (op.writes vaddr value) m.bus).record.acts
  control : Segment.of vaddr = .kseg2 → t.bus = m.bus ∧ acts = [] ∧
    ∀ d < 4, Word.byte t.cpu.caches.biu.word d = if op.covers (Lane.of vaddr) d then
      op.byte (Lane.of vaddr) value d else Word.byte m.cpu.caches.biu.word d

theorem executeStore_stored {op : Store} {value : UInt32} {a : Unit}
    (h : (executeStore op vaddr value m).value = (.ok a, t)) :
    Stored op vaddr value m (executeStore op vaddr value m).record.acts t := by
  rw [executeStore_eq] at h ⊢
  obtain ⟨_, u, hu, ht⟩ := exec_bind_inv h
  have hinward : Inward m _ u := (checkStore_inward op vaddr).holds hu
  have hacts := hinward.acts_eq_nil (checkStore_kept op vaddr).2
  have hspread := Store.spread (aligned_of_checkStore hu) value
  rw [exec_bind_ok hu, Record.acts_append, hacts, List.nil_append]
  refine ⟨hspread, fun hout => ?_, fun hseg => ?_⟩
  · have hconducts :=
      Conducts.issue (hout.of_modes hinward.status (congrArg Caches.biu hinward.caches)) op value
    rw [← hinward.bus]
    exact ⟨hconducts.of_ok ht, hconducts.acts⟩
  · obtain ⟨hbus, hno, hword⟩ := Configures.issue hseg op value _ _ ht
    refine ⟨hbus.trans hinward.bus, hno, fun d hd => ?_⟩
    rw [hword, hinward.caches]
    exact hspread.byte_foldl _ hd

/-- A store has the device read nothing, and leaves the receivers of the serial ports as they are, but that of
a port that it resets through its control register. What it writes is each byte of its register that it is to
store, once. -/
theorem store_writes {i : Instruction} (he : i.effective? m.operands = some (.store, vaddr)) (pc : UInt32) :
    Bus.Unread (fun p => Lane.base (translate vaddr) = Serial.controlWord p) m.bus (execute i pc m).record
        (execute i pc m).value.2.bus ∧
      ∀ op f, i = .immediate (.store op) f → (execute i pc m).value = (.ok (), t) →
        Stored op vaddr (m.cpu.regs.gpr f.rt) m (execute i pc m).record.acts t := by
  refine ⟨execute_unread he pc, ?_⟩
  rintro op f rfl h
  cases he
  rw [execute_store] at h
  rw [acts_execute_store]
  exact executeStore_stored h

/-- Before a store of three bytes to the word of the data register of a serial port. -/
def addressing : Machine Gte.Registers Unit :=
  (booting [0x3c08bf80, 0x35081040, 0x3c091122, 0x35293344, 0xb9090001] (by decide)).steps 4

set_option maxRecDepth 10000 in
theorem store_writes_addressing : addressing.Reachable ∧
    Instruction.effective? (.immediate (.store .swr) ⟨8, 9, 1⟩) addressing.operands =
      some (.store, 0xbf801041) ∧
    ∃ t, (execute (.immediate (.store .swr) ⟨8, 9, 1⟩) 0xbfc00010 addressing).value = (.ok (), t) ∧
      (∀ p, (addressing.bus.serial.port p).SameReceiver (t.bus.serial.port p)) ∧
      (Bus.writes [⟨0x1f801041, 0x223344, .byte⟩, ⟨0x1f801042, 0x2233, .half⟩]
        addressing.bus).value = (.ok (), t.bus) := by
  have he : Instruction.effective? (.immediate (.store .swr) ⟨8, 9, 1⟩) addressing.operands =
      some (.store, 0xbf801041) := by decide +kernel
  have hsucceeds : (execute (.immediate (.store .swr) ⟨8, 9, 1⟩) 0xbfc00010 addressing).value.1.isOk := by
    decide +kernel
  have hvalue : addressing.cpu.regs.gpr 9 = 0x11223344 := by decide +kernel
  have hout : addressing.Outbound 0xbf801041 := ⟨by decide, by decide +kernel, by decide +kernel⟩
  have hdata : ∀ p, Lane.base (translate 0xbf801041) ≠ Serial.controlWord p := by decide
  refine ⟨.steps 4 (reachable_booting _ _), he, ?_⟩
  cases hv : (execute (.immediate (.store .swr) ⟨8, 9, 1⟩) 0xbfc00010 addressing).value with
  | mk r t =>
    rw [hv] at hsucceeds
    cases r with
    | error e => cases hsucceeds
    | ok _ =>
      obtain ⟨hunread, hstored⟩ := store_writes he 0xbfc00010
      have hports := hunread.ports
      rw [hv] at hports
      have hwrites := ((hstored _ _ rfl hv).bus hout).1
      rw [hvalue] at hwrites
      exact ⟨t, rfl, fun p => (hports p).resolve_right fun h => hdata p h.1.1, hwrites⟩

end Machine
end R3000
