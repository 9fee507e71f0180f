import R3000.Proofs.BusWrites
import R3000.Proofs.EffectiveAddresses

/-! # Stores that raise exceptions

The parts of the machine refuse no write, but the device outside may take the first write of a store and
refuse the second. So a store that raises an exception has written no part of the machine, and the device
has taken at most the first of two writes. -/
namespace R3000

/-- The address whose access a store checks. -/
def Store.checked (op : Store) (vaddr : UInt32) : UInt32 :=
  match op with
  | .swl | .swr => Lane.base vaddr
  | _ => vaddr

namespace Machine
variable {γ δ α β : Type} {m t : Machine γ δ} {w : Bus.Write} {ws : List Bus.Write}

def checkStore (op : Store) (vaddr : UInt32) : Exec γ δ Unit := do
  checkDataBreakpoint .store vaddr
  checkAccess .store (op.checked vaddr) op.width

def issue (op : Store) (vaddr value : UInt32) : Exec γ δ Unit :=
  let shift := UInt32.ofNat (8 * Lane.of vaddr)
  let pieces (value : UInt32) (ps : List (UInt32 × Width)) : Exec γ δ Unit :=
    ps.forM fun p => write (Lane.base vaddr + p.1) (value >>> (8 * p.1)) p.2
  match op with
  | .sb | .sh | .sw => write vaddr value op.width
  | .swl => pieces (value >>> (24 - shift)) (Lane.upTo (Lane.of vaddr))
  | .swr => pieces (value <<< shift) (Lane.onward (Lane.of vaddr))

theorem executeStore_eq (op : Store) (vaddr value : UInt32) :
    executeStore (γ := γ) (δ := δ) op vaddr value = (do checkStore op vaddr; issue op vaddr value) := by
  cases op with
  | sb | sh | sw =>
    simp only [executeStore, store, checkStore, bind_assoc]
    rfl
  | swl =>
    simp only [executeStore_swl, storePieces, checkStore, bind_assoc]
    rfl
  | swr =>
    simp only [executeStore_swr, storePieces, checkStore, bind_assoc]
    rfl

theorem checkStore_inward (op : Store) (vaddr : UInt32) :
    Moves inward (checkStore (γ := γ) (δ := δ) op vaddr) m :=
  .exec_bind (checkDataBreakpoint_inward _ _) fun _ _ _ => checkAccess_inward _ _ _

theorem checkStore_kept (op : Store) (vaddr : UInt32) :
    Moves (kept noPort) (checkStore (γ := γ) (δ := δ) op vaddr) m :=
  .exec_bind (checkDataBreakpoint_kept _ _) fun _ _ _ => checkAccess_kept _ _ _

theorem aligned_of_checkStore {op : Store} {vaddr : UInt32} {a : Unit}
    (h : (checkStore op vaddr m).value = (.ok a, t)) : op.aligned vaddr := by
  obtain ⟨_, u, -, hcheck⟩ := exec_bind_inv h
  have hchecked := aligned_of_checkAccess ⟨u, t, hcheck⟩
  cases op with
  | sb | sh | sw => exact hchecked
  | swl | swr => rfl

/-- What is stored at the address goes to the bus. -/
structure Outbound (m : Machine γ δ) (vaddr : UInt32) : Prop where
  segment : Segment.of vaddr ≠ .kseg2
  isolation : m.cpu.regs.cop0.status.isc = false
  scratchpad : ((Segment.of vaddr).cached && DataArray.covers (translate vaddr) &&
    m.cpu.caches.biu.scratchpad) = false

namespace Outbound
variable {vaddr v : UInt32}

/-- The bytes of a word go the same way. -/
theorem congr (h : m.Outbound vaddr) (hv : Lane.base v = Lane.base vaddr) : m.Outbound v := by
  have hseg : Segment.of v = Segment.of vaddr := by rw [← Segment.of_base, hv, Segment.of_base]
  have hcovers : DataArray.covers (translate v) = DataArray.covers (translate vaddr) := by
    rw [← DataArray.covers_base, ← translate_base, hv, translate_base, DataArray.covers_base]
  exact ⟨hseg ▸ h.segment, h.isolation, by rw [hseg, hcovers]; exact h.scratchpad⟩

theorem of_modes (h : m.Outbound vaddr) (hs : t.cpu.regs.cop0.status = m.cpu.regs.cop0.status)
    (hb : t.cpu.caches.biu = m.cpu.caches.biu) : t.Outbound vaddr :=
  ⟨h.segment, hs ▸ h.isolation, hb ▸ h.scratchpad⟩

theorem of_foreign (h : m.foreign vaddr) (hs : Segment.of vaddr ≠ .kseg2) : m.Outbound vaddr := by
  simp only [foreign] at h
  rw [if_neg hs] at h
  simp only [Bool.and_eq_true, Bool.not_eq_true'] at h
  exact ⟨hs, h.1.1, h.1.2⟩

end Outbound

/-- The computation does these writes on the bus, and raises an exception where one of them is refused. -/
structure Conducts (ws : List Bus.Write) (x : Exec γ δ α) (m : Machine γ δ) : Prop where
  bus : (x m).value.2.bus = (Bus.writes ws m.bus).value.2
  acts : (x m).record.acts = (Bus.writes ws m.bus).record.acts
  ends : (x m).value.1.isOk = (Bus.writes ws m.bus).value.1.isOk

namespace Conducts
variable {x : Exec γ δ α} {f : α → Exec γ δ β}

theorem pure (a : α) : Conducts [] (Pure.pure a) m := ⟨rfl, rfl, rfl⟩

theorem of_ok (h : Conducts ws x m) {a : α} (hx : (x m).value = (.ok a, t)) :
    (Bus.writes ws m.bus).value = (.ok (), t.bus) := by
  have hends := h.ends
  have hbus := h.bus
  rw [hx] at hends hbus
  cases hw : (Bus.writes ws m.bus).value with
  | mk r b =>
    rw [hw] at hends hbus
    cases r with
    | ok _ => exact Prod.ext rfl hbus.symm
    | error e => cases hends

theorem of_error (h : Conducts ws x m) {e : Exception} (hx : (x m).value = (.error e, t)) :
    ∃ e', (Bus.writes ws m.bus).value = (.error e', t.bus) := by
  have hends := h.ends
  have hbus := h.bus
  rw [hx] at hends hbus
  cases hw : (Bus.writes ws m.bus).value with
  | mk r b =>
    rw [hw] at hends hbus
    cases r with
    | ok _ => cases hends
    | error e' => exact ⟨e', Prod.ext rfl hbus.symm⟩

theorem ask (w : Bus.Write) (vaddr : UInt32) : Conducts [w]
    (do answer .store vaddr (← plain (onBus (Bus.write w.addr w.value w.width))) : Exec γ δ Unit) m := by
  have hacts : (plain (onBus (Bus.write w.addr w.value w.width)) m).record.acts =
      (Bus.write w.addr w.value w.width m.bus).record.acts := List.append_nil _
  cases hv : (Bus.write w.addr w.value w.width m.bus).value with
  | mk r b =>
    have hask : (plain (onBus (Bus.write w.addr w.value w.width)) m).value =
        (.ok r, { m with bus := b }) := by
      show (Except.ok (Bus.write w.addr w.value w.width m.bus).value.1,
        { m with bus := (Bus.write w.addr w.value w.width m.bus).value.2 }) = _
      rw [hv]
    cases r with
    | ok _ =>
      refine ⟨?_, ?_, ?_⟩ <;> rw [exec_bind_ok hask, Bus.writes_cons_ok hv]
      · rfl
      · rw [Record.acts_append, Record.acts_append, hacts]
        rfl
      · rfl
    | error e =>
      have hfault : (answer (γ := γ) (δ := δ) .store vaddr (.error e : Except BusError Unit)
          { m with bus := b }).record.acts = [] := by
        cases e <;> rfl
      refine ⟨?_, ?_, ?_⟩ <;> rw [exec_bind_ok hask, Bus.writes_cons_error hv]
      · rfl
      · rw [Record.acts_append, hacts, hfault, List.append_nil]
      · rfl

/-- A write and those that follow it where it is not refused. -/
theorem cons (hx : Conducts [w] x m) (hf : ∀ a t, (x m).value = (.ok a, t) → Conducts ws (f a) t) :
    Conducts (w :: ws) (x >>= f) m := by
  obtain ⟨hvalue, hone⟩ := Bus.writes_singleton w m.bus
  have hacts := hx.acts
  rw [hone] at hacts
  cases hv : (x m).value with
  | mk r t =>
    cases r with
    | ok a =>
      have hwrite := hvalue.symm.trans (hx.of_ok hv)
      have hrest := hf a t hv
      refine ⟨?_, ?_, ?_⟩ <;> rw [exec_bind_ok hv, Bus.writes_cons_ok hwrite]
      · exact hrest.bus
      · rw [Record.acts_append, Record.acts_append, hacts, hrest.acts]
      · exact hrest.ends
    | error e =>
      obtain ⟨e', he⟩ := hx.of_error hv
      have hwrite := hvalue.symm.trans he
      refine ⟨?_, ?_, ?_⟩ <;> rw [exec_bind_error hv, Bus.writes_cons_error hwrite]
      · exact hacts
      · rfl

/-- What comes before leaves the bus alone. -/
theorem after {a : α} (hx : (x m).value = (.ok a, t)) (hb : t.bus = m.bus) (hr : (x m).record.acts = [])
    (hf : Conducts ws (f a) t) : Conducts ws (x >>= f) m := by
  refine ⟨?_, ?_, ?_⟩ <;> rw [exec_bind_ok hx, ← hb]
  · exact hf.bus
  · rw [Record.acts_append, hr]
    exact hf.acts
  · exact hf.ends

theorem write {vaddr : UInt32} (h : m.Outbound vaddr) (value : UInt32) (width : Width) :
    Conducts [⟨translate vaddr, value, width⟩] (Machine.write vaddr value width) m := by
  have hask := fun m : Machine γ δ => ask (m := m) ⟨translate vaddr, value, width⟩ vaddr
  refine after (x := get) rfl rfl rfl ?_
  dsimp only
  rw [if_neg h.segment, h.isolation, if_neg nofun, h.scratchpad, if_neg nofun]
  split
  · exact after rfl rfl rfl (hask _)
  · exact hask m

theorem pieces {vaddr : UInt32} (h : m.Outbound vaddr) {pieces : List (UInt32 × Width)}
    (hp : ∀ p ∈ pieces, Lane.base (Lane.base vaddr + p.1) = Lane.base vaddr) (value : UInt32) :
    Conducts (Bus.pieceWrites vaddr value pieces) (pieces.forM fun p =>
      Machine.write (Lane.base vaddr + p.1) (value >>> (8 * p.1)) p.2 : Exec γ δ PUnit) m := by
  induction pieces generalizing m with
  | nil => exact pure _
  | cons p pieces ih =>
    have hout := h.congr (hp p List.mem_cons_self)
    refine cons (write hout _ _) fun _ t ht => ih ?_ fun q hq => hp q (List.mem_cons_of_mem p hq)
    obtain ⟨hcop0, hbiu⟩ := (write_modes (m := m) hout.segment (value >>> (8 * p.1)) p.2).holds ht
    exact h.of_modes (congrArg Cop0.status hcop0) hbiu

theorem issue {vaddr : UInt32} (h : m.Outbound vaddr) (op : Store) (value : UInt32) :
    Conducts (op.writes vaddr value) (Machine.issue op vaddr value) m := by
  cases op with
  | sb | sh | sw => exact write h value _
  | swl => exact pieces h (fun _ hp => Lane.base_add_piece (List.mem_append_left _ hp) vaddr) _
  | swr => exact pieces h (fun _ hp => Lane.base_add_piece (List.mem_append_right _ hp) vaddr) _

end Conducts

/-- What leaves memory alone, and hands no command to the geometry engine, leaves no act. -/
theorem Inward.acts_eq_nil {r : Record} (h : Inward m r t) (hr : r.Commandless) : r.acts = [] :=
  List.eq_nil_iff_forall_not_mem.mpr fun a ha => by
    obtain ⟨c, rfl⟩ := h.acts a ha
    exact hr c ha

/-- Where the computation raises an exception, it has not used the bus, or has done these writes on it up to
one that was refused. -/
def Refusable (ws : List Bus.Write) (x : Exec γ δ α) (m : Machine γ δ) : Prop :=
  ∀ e t, (x m).value = (.error e, t) → t.bus = m.bus ∧ (x m).record.acts = [] ∨
    ∃ e', (Bus.writes ws m.bus).value = (.error e', t.bus) ∧
      (x m).record.acts = (Bus.writes ws m.bus).record.acts

namespace Refusable
variable {x : Exec γ δ α} {f : α → Exec γ δ β} {vaddr value : UInt32} {pieces : List (UInt32 × Width)}

theorem of_conducts (h : Conducts ws x m) : Refusable ws x m := fun _ _ hx =>
  .inr ((h.of_error hx).imp fun _ he => ⟨he, h.acts⟩)

theorem of_ok (h : ∃ a t, (x m).value = (.ok a, t)) : Refusable ws x m := fun e u hx => by
  obtain ⟨a, t, ha⟩ := h
  rw [ha] at hx
  cases hx

/-- Checks may go before. -/
theorem checked (hin : Moves inward x m) (hq : Moves (kept noPort) x m)
    (hf : ∀ a t, (x m).value = (.ok a, t) → Refusable ws (f a) t) : Refusable ws (x >>= f) m := by
  intro e u h
  have hacts : (x m).record.acts = [] := Inward.acts_eq_nil hin hq.2
  cases hv : (x m).value with
  | mk r t =>
    have hbus : t.bus = m.bus := (hin.holds hv).bus
    cases r with
    | error e' =>
      rw [exec_bind_error hv] at h ⊢
      cases h
      exact .inl ⟨hbus, hacts⟩
    | ok a =>
      rw [exec_bind_ok hv] at h ⊢
      rw [Record.acts_append, hacts, ← hbus]
      exact hf a t hv e u h

/-- What is refused past the caches is refused at once. -/
theorem of_kseg2 (hs : Segment.of vaddr = .kseg2) (h : m.foreign vaddr) (value : UInt32) (width : Width) :
    ∃ e, (Machine.write vaddr value width m).value = (.error e, m) ∧
      (Machine.write vaddr value width m).record.acts = [] := by
  simp only [foreign] at h
  rw [if_pos hs] at h
  have hbiu : ¬onBiu (translate vaddr) = true := by simpa using h
  have hwrite : Machine.write vaddr value width m =
      (do note (.kseg2Store (translate vaddr)); throw (Access.store.addressError vaddr) :
        Exec γ δ Unit) m := by
    show (if _ then _ else _ : Exec γ δ Unit) m = _
    rw [if_pos hs, if_neg hbiu]
  rw [hwrite]
  exact ⟨_, rfl, rfl⟩

theorem write (vaddr value : UInt32) (width : Width) :
    Refusable [⟨translate vaddr, value, width⟩] (Machine.write vaddr value width) m := by
  by_cases h : m.foreign vaddr
  · by_cases hs : Segment.of vaddr = .kseg2
    · obtain ⟨e, hvalue, hacts⟩ := of_kseg2 hs h value width
      intro e' t ht
      rw [hvalue] at ht
      cases ht
      exact .inl ⟨rfl, hacts⟩
    · exact of_conducts (.write (.of_foreign h hs) value width)
  · exact of_ok (write_own h value width)

theorem writePieces (hp : ∀ p ∈ pieces, Lane.base (Lane.base vaddr + p.1) = Lane.base vaddr)
    (value : UInt32) :
    Refusable (Bus.pieceWrites vaddr value pieces) (pieces.forM fun p =>
      Machine.write (Lane.base vaddr + p.1) (value >>> (8 * p.1)) p.2 : Exec γ δ PUnit) m := by
  by_cases h : m.foreign vaddr
  · by_cases hs : Segment.of vaddr = .kseg2
    · cases pieces with
      | nil => exact of_ok ⟨_, _, rfl⟩
      | cons p pieces =>
        have hbase := hp p List.mem_cons_self
        have hforeign : m.foreign (Lane.base vaddr + p.1) := by
          rw [← foreign_base, hbase, foreign_base]
          exact h
        have hseg : Segment.of (Lane.base vaddr + p.1) = .kseg2 := by
          rw [← Segment.of_base, hbase, Segment.of_base, hs]
        obtain ⟨e, hvalue, hacts⟩ := of_kseg2 hseg hforeign (value >>> (8 * p.1)) p.2
        intro e' t ht
        rw [List.forM, exec_bind_error hvalue] at ht ⊢
        cases ht
        exact .inl ⟨rfl, hacts⟩
    · exact of_conducts (.pieces (.of_foreign h hs) hp value)
  · refine of_ok (writePieces_own hp ?_ value)
    rwa [foreign_base]

theorem executeStore (op : Store) (vaddr value : UInt32) :
    Refusable (op.writes vaddr value) (Machine.executeStore op vaddr value) m := by
  rw [executeStore_eq]
  refine checked (checkStore_inward _ _) (checkStore_kept _ _) fun _ _ _ => ?_
  cases op with
  | sb | sh | sw => exact write _ _ _
  | swl => exact writePieces (fun _ hp => Lane.base_add_piece (List.mem_append_left _ hp) vaddr) _
  | swr => exact writePieces (fun _ hp => Lane.base_add_piece (List.mem_append_right _ hp) vaddr) _

end Refusable

/-- Before a store does anything it reads its registers. -/
theorem execute_store (op : Store) (f : Immediate) (pc : UInt32) (m : Machine γ δ) :
    execute (.immediate (.store op) f) pc m =
      ⟨(executeStore op (m.operands.address f) (m.cpu.regs.gpr f.rt) m).value,
        (effectiveAddress (γ := γ) (δ := δ) f.rs f.imm m).record ++
          (executeStore op (m.operands.address f) (m.cpu.regs.gpr f.rt) m).record⟩ := by
  have haddr : (effectiveAddress f.rs f.imm m).value = (.ok (m.operands.address f), m) := rfl
  have hgpr : (gpr f.rt m).value = (.ok (m.cpu.regs.gpr f.rt), m) := rfl
  simp only [execute, executeImmediate]
  rw [exec_bind_ok haddr, exec_bind_ok hgpr]
  rfl

theorem acts_execute_store (op : Store) (f : Immediate) (pc : UInt32) (m : Machine γ δ) :
    (execute (.immediate (.store op) f) pc m).record.acts =
      (executeStore op (m.operands.address f) (m.cpu.regs.gpr f.rt) m).record.acts := by
  rw [execute_store]
  rfl

/-- A store that raises an exception has written no part of the machine. The device was not asked, or it has
refused one of the writes of the store. It has taken none before, unless the store covers three lanes of a
word, and goes out in two writes: then it may have taken the first. -/
theorem store_refused {op : Store} {f : Immediate} {pc : UInt32} {e : Exception}
    (h : (execute (.immediate (.store op) f) pc m).value = (.error e, t)) :
    Kept noPort m t ∧ ∃ taken,
      (taken = [] ∧ (execute (.immediate (.store op) f) pc m).record.acts = [] ∧
          t.bus.outside = m.bus.outside ∨
        m.bus.device.Refuses (op.writes (m.operands.address f) (m.cpu.regs.gpr f.rt)) taken m.bus.outside
          (execute (.immediate (.store op) f) pc m).record.acts t.bus.outside) ∧
      (taken = [] ∨ op.splits (m.operands.address f) ∧ ∃ first second, taken = [first] ∧
        op.writes (m.operands.address f) (m.cpu.regs.gpr f.rt) = [first, second]) := by
  rw [acts_execute_store]
  rw [execute_store] at h
  refine ⟨(executeStore_precise _ _ _ e t h).1, ?_⟩
  obtain ⟨hbus, hacts⟩ | ⟨e', hwrites, hacts⟩ := Refusable.executeStore op _ _ e t h
  · exact ⟨[], .inl ⟨rfl, hacts, congrArg Bus.outside hbus⟩, .inl rfl⟩
  · obtain ⟨taken, hrefuses⟩ := Bus.writes_refused (op.within_writes _ _) hwrites
    rw [hacts]
    exact ⟨taken, .inr hrefuses, Store.taken_writes _ _ hrefuses.next⟩

/-- A device that takes and keeps the writes below an address. -/
def takingBelow (bound : UInt32) : Device (List Bus.Write) where
  read addr _ s := (.error (.unmapped addr), s)
  write addr value width s :=
    if addr < bound then (.ok (), s ++ [⟨addr, value, width⟩]) else (.error (.unmapped addr), s)

/-- A machine with a program in its ROM, and with a device that takes writes up to the middle of a word. -/
def bordering (words : List UInt32) (h : (words.flatMap littleEndian).length ≤ romSize) :
    Machine Gte.Registers (List Bus.Write) :=
  let m := create {} Gte.inert {} (takingBelow 0x1f000002) []
  { m with bus := { m.bus with rom := startingRom (words.flatMap littleEndian) h } }

theorem reachable_bordering (words : List UInt32)
    (h : (words.flatMap littleEndian).length ≤ romSize) : Reachable (bordering words h) := by
  have hload := (Reachable.create {} Gte.inert {} (takingBelow 0x1f000002) []).loadRom
    ⟨⟨words.flatMap littleEndian⟩⟩
  simp only [loadRom] at hload
  rw [ofImage?_starting h] at hload
  exact hload

/-- Before a store of three lanes of that word. -/
def splitting : Machine Gte.Registers (List Bus.Write) :=
  (bordering [0x3c081f00, 0x3c091122, 0x35293344, 0xa9090002] (by decide)).steps 3

theorem reachable_splitting : splitting.Reachable := (reachable_bordering _ _).steps 3

set_option maxRecDepth 10000 in
theorem store_refused_splitting : splitting.Reachable ∧ ∃ e t taken,
    (execute (.immediate (.store .swl) ⟨8, 9, 2⟩) 0xbfc0000c splitting).value = (.error e, t) ∧
      Kept noPort splitting t ∧ t.bus.outside = [⟨0x1f000000, 0x112233, .half⟩] ∧
      splitting.bus.device.Refuses (Store.writes .swl 0x1f000002 0x11223344) taken []
        (execute (.immediate (.store .swl) ⟨8, 9, 2⟩) 0xbfc0000c splitting).record.acts t.bus.outside := by
  have hfails : (execute (.immediate (.store .swl) ⟨8, 9, 2⟩) 0xbfc0000c splitting).value.1.isOk =
      false := by decide +kernel
  have htaken : (execute (.immediate (.store .swl) ⟨8, 9, 2⟩) 0xbfc0000c splitting).value.2.bus.outside =
      [⟨0x1f000000, 0x112233, .half⟩] := by decide +kernel
  have hvaddr : splitting.operands.address ⟨8, 9, 2⟩ = 0x1f000002 := by decide +kernel
  have hvalue : splitting.cpu.regs.gpr 9 = 0x11223344 := by decide +kernel
  have hbefore : splitting.bus.outside = [] := by decide +kernel
  refine ⟨reachable_splitting, ?_⟩
  cases hv : (execute (.immediate (.store .swl) ⟨8, 9, 2⟩) 0xbfc0000c splitting).value with
  | mk r t =>
    rw [hv] at hfails htaken
    cases r with
    | ok _ => cases hfails
    | error e =>
      obtain ⟨hkept, taken, ⟨-, -, hsame⟩ | hrefuses, -⟩ := store_refused hv
      · rw [hsame, hbefore] at htaken
        cases htaken
      · rw [hvaddr, hvalue, hbefore] at hrefuses
        exact ⟨e, t, taken, rfl, hkept, htaken, hrefuses⟩

set_option maxRecDepth 10000 in
/-- The first write of a store that raises an exception has reached the device. -/
theorem half_store_delivered : splitting.Reachable ∧
    splitting.executing? = some (.immediate (.store .swl) ⟨8, 9, 2⟩) ∧
    splitting.Raises (.addressStore 0x1f000002) ∧ splitting.bus.outside = [] ∧
    (next splitting).value.2.bus.outside = [⟨0x1f000000, 0x112233, .half⟩] := by
  refine ⟨reachable_splitting, by decide +kernel, ?_, by decide +kernel, by decide +kernel⟩
  unfold Raises
  decide +kernel

end Machine
end R3000
