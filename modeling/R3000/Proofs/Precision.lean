import R3000.Proofs.Unchanged

/-! # Instructions that raise exceptions leave the machine alone

Up to where it may raise an exception an instruction only looks at the machine, and behind that it
changes what it has to and raises none. Stores in pieces are the one case where changes and exceptions
mix, and there the pieces lie in one word: either no part of the machine is written, or none of them
raises an exception. -/
namespace R3000.Machine
variable {γ δ α β : Type} {m t u : Machine γ δ} {taken : Fin 2 → Prop}

/-- Two machines are the same but for what an exception may change: the clock, the program counter and
the branch under way, the system control registers, the instruction cache and the world outside; and but
that the character that waits in some serial ports may have been taken. -/
structure Kept (taken : Fin 2 → Prop) (m t : Machine γ δ) : Prop where
  gprs : t.cpu.regs.gprs = m.cpu.regs.gprs
  hi : t.cpu.regs.hi = m.cpu.regs.hi
  lo : t.cpu.regs.lo = m.cpu.regs.lo
  load : t.cpu.slots.load = m.cpu.slots.load
  nextLoad : t.cpu.slots.nextLoad = m.cpu.slots.nextLoad
  muldiv : t.cpu.muldiv = m.cpu.muldiv
  data : t.cpu.caches.data = m.cpu.caches.data
  biu : t.cpu.caches.biu = m.cpu.caches.biu
  gteState : t.gteState = m.gteState
  bus : Bus.Kept taken m.bus t.bus

theorem Kept.refl (taken : Fin 2 → Prop) (m : Machine γ δ) : Kept taken m m :=
  ⟨rfl, rfl, rfl, rfl, rfl, rfl, rfl, rfl, rfl, .refl taken m.bus⟩

theorem Kept.trans (h : Kept taken m t) (k : Kept taken t u) : Kept taken m u :=
  ⟨k.gprs.trans h.gprs, k.hi.trans h.hi, k.lo.trans h.lo, k.load.trans h.load,
    k.nextLoad.trans h.nextLoad, k.muldiv.trans h.muldiv, k.data.trans h.data, k.biu.trans h.biu,
    k.gteState.trans h.gteState, h.bus.trans k.bus⟩

theorem Kept.mono {taken' : Fin 2 → Prop} (h : Kept taken m t) (hi : ∀ i, taken i → taken' i) :
    Kept taken' m t :=
  ⟨h.gprs, h.hi, h.lo, h.load, h.nextLoad, h.muldiv, h.data, h.biu, h.gteState, h.bus.mono hi⟩

def kept (taken : Fin 2 → Prop) : Motion (Machine γ δ) where
  holds m r t := Kept taken m t ∧ r.Commandless
  still m _ := ⟨.refl taken m, .of_acts rfl⟩
  trans h k := ⟨h.1.trans k.1, h.2.append k.2⟩

def noPort : Fin 2 → Prop := fun _ => False

theorem kept_mono {x : Run γ δ α} (h : Moves (kept noPort) x m) : Moves (kept taken) x m :=
  ⟨h.1.mono fun _ => False.elim, h.2⟩

theorem kept_onBus {x : Bus.Op δ α} (hx : Moves (Bus.kept taken) x m.bus) :
    Moves (kept taken) (onBus x) m :=
  .onBus hx fun _ _ h => ⟨⟨rfl, rfl, rfl, rfl, rfl, rfl, rfl, rfl, rfl, h.1⟩, h.2⟩

/-- A change of the processor that an exception may follow. -/
structure KeptCpu (c d : Cpu) : Prop where
  gprs : d.regs.gprs = c.regs.gprs
  hi : d.regs.hi = c.regs.hi
  lo : d.regs.lo = c.regs.lo
  load : d.slots.load = c.slots.load
  nextLoad : d.slots.nextLoad = c.slots.nextLoad
  muldiv : d.muldiv = c.muldiv
  data : d.caches.data = c.caches.data
  biu : d.caches.biu = c.caches.biu

theorem modifyCpu_kept {f : Cpu → Cpu} (h : KeptCpu m.cpu (f m.cpu)) :
    Moves (kept taken) (modifyCpu f) m :=
  ⟨⟨h.gprs, h.hi, h.lo, h.load, h.nextLoad, h.muldiv, h.data, h.biu, rfl, .refl taken m.bus⟩,
    .of_acts rfl⟩

theorem setClock_kept (clock : Clock) : Moves (kept taken) (setClock clock) m :=
  modifyCpu_kept ⟨rfl, rfl, rfl, rfl, rfl, rfl, rfl, rfl⟩

theorem acts_count (n amount : UInt64) : (count n amount).record.acts = [] := by
  simp only [count]
  rw [Reported.record_bind, Record.acts_append, acts_require]
  rfl

theorem kept_of_acts {r : Record} (hr : r.acts = []) (m : Machine γ δ) : (kept taken).holds m r m :=
  ⟨.refl taken m, .of_acts hr⟩

theorem spend_kept (cycles : UInt64) : Moves (kept taken) (spend cycles) m :=
  .get_bind (.lift_bind (kept_of_acts (acts_count _ _) m) (setClock_kept _))

theorem awaitGte_kept : Moves (kept taken) awaitGte m := by
  refine .get_bind ?_
  dsimp only
  split
  · exact .quiet_bind (.note _) (setClock_kept _)
  · exact .pure _

theorem modifyCop0_kept (f : Cop0 → Cop0) : Moves (kept taken) (modifyCop0 (γ := γ) (δ := δ) f) m :=
  .plain (modifyCpu_kept ⟨rfl, rfl, rfl, rfl, rfl, rfl, rfl, rfl⟩)

theorem throw_kept (e : Exception) : Moves (kept taken) (throw e : Exec γ δ α) m := (kept taken).still m []

theorem note_throw_kept (n : Notice) (e : Exception) :
    Moves (kept taken) (do note n; throw e : Exec γ δ α) m :=
  .exec_lift_bind ((kept taken).still m [n]) (throw_kept e)

theorem note_kept (n : Notice) : Moves (kept taken) (liftM (note n) : Exec γ δ Unit) m :=
  .exec_lift ((kept taken).still m [n])

theorem gpr_kept (r : Reg) : Moves (kept taken) (gpr (γ := γ) (δ := δ) r) m :=
  .exec_get_bind (.pure _)

theorem effectiveAddress_kept (rs : Reg) (imm : UInt16) :
    Moves (kept taken) (effectiveAddress (γ := γ) (δ := δ) rs imm) m :=
  .exec_bind (gpr_kept rs) fun _ t _ => .exec_lift_bind ((kept taken).still t _) (.pure _)

theorem requireCop_kept (z : Cop) : Moves (kept taken) (requireCop (γ := γ) (δ := δ) z) m := by
  refine .exec_get_bind ?_
  split
  · exact note_throw_kept _ _
  · exact .pure _

theorem checkDataBreakpoint_kept (access : Access) (vaddr : UInt32) :
    Moves (kept taken) (checkDataBreakpoint (γ := γ) (δ := δ) access vaddr) m := by
  refine .exec_get_bind ?_
  dsimp only
  split
  · refine .exec_bind (modifyCop0_kept _) fun _ t _ => .exec_lift_bind ((kept taken).still t _) ?_
    split
    · exact throw_kept _
    · exact .pure _
  · exact .pure _

/-- A check that may raise an exception goes before the rest. -/
theorem check_kept {c : Prop} [Decidable c] {n : Notice} {e : Exception} {x : Exec γ δ β}
    (hx : ¬c → Moves (kept taken) x m) :
    Moves (kept taken)
      (if c then do note n; let y ← throw e; (fun _ : PUnit => x) y else x : Exec γ δ β) m := by
  split
  · exact .exec_lift_bind ((kept taken).still m [n])
      (.exec_bind (throw_kept e) fun _ _ h => by cases h)
  · exact hx ‹_›

theorem checkAccess_kept (access : Access) (vaddr : UInt32) (w : Width) :
    Moves (kept taken) (checkAccess (γ := γ) (δ := δ) access vaddr w) m := by
  refine check_kept fun _ => .exec_get_bind ?_
  split
  · exact note_throw_kept _ _
  · exact .pure _

theorem answer_kept (access : Access) (vaddr : UInt32) (r : Except BusError α) :
    Moves (kept taken) (answer (γ := γ) (δ := δ) access vaddr r) m := by
  cases r with
  | ok a => exact .pure _
  | error e => exact .exec_lift_bind ((kept taken).quiet (.busFault access vaddr e) m) (throw_kept _)

/-- Where the computation raises an exception, it has kept the machine. -/
def Precise (x : Exec γ δ α) (m : Machine γ δ) : Prop :=
  ∀ e t, (x m).value = (.error e, t) → (kept noPort).holds m (x m).record t

def Total (x : Exec γ δ α) : Prop := ∀ m, ∃ a t, (x m).value = (.ok a, t)

theorem exec_get_bind_at (f : Machine γ δ → Exec γ δ β) :
    (get >>= f : Exec γ δ β) m = f m m := rfl

theorem exec_bind_ok {x : Exec γ δ α} {a : α} (h : (x m).value = (.ok a, t)) (f : α → Exec γ δ β) :
    (x >>= f : Exec γ δ β) m = ⟨(f a t).value, (x m).record ++ (f a t).record⟩ := by
  show (x m >>= fun p => ExceptT.bindCont f p.1 p.2) = _
  refine Reported.eq_of ?_ ?_
  · rw [Reported.value_bind, h]
    rfl
  · rw [Reported.record_bind, h]
    rfl

theorem exec_bind_error {x : Exec γ δ α} {e : Exception} (h : (x m).value = (.error e, t))
    (f : α → Exec γ δ β) : (x >>= f : Exec γ δ β) m = ⟨(.error e, t), (x m).record⟩ := by
  show (x m >>= fun p => ExceptT.bindCont f p.1 p.2) = _
  refine Reported.eq_of ?_ ?_
  · rw [Reported.value_bind, h]
    rfl
  · rw [Reported.record_bind, h]
    exact Record.append_empty _

/-- A sequence ends well where both its parts do. -/
theorem exec_bind_inv {x : Exec γ δ α} {f : α → Exec γ δ β} {b : β}
    (h : ((x >>= f : Exec γ δ β) m).value = (.ok b, u)) :
    ∃ a t, (x m).value = (.ok a, t) ∧ (f a t).value = (.ok b, u) := by
  cases hv : (x m).value with
  | mk r t =>
    cases r with
    | error e =>
      rw [exec_bind_error hv] at h
      cases h
    | ok a =>
      rw [exec_bind_ok hv] at h
      exact ⟨a, t, rfl, h⟩

/-- A sequence raises an exception where its first part does, or else its second. -/
theorem exec_bind_error_inv {x : Exec γ δ α} {f : α → Exec γ δ β} {e : Exception}
    (h : ((x >>= f : Exec γ δ β) m).value = (.error e, u)) :
    (x m).value = (.error e, u) ∨
      ∃ a t, (x m).value = (.ok a, t) ∧ (f a t).value = (.error e, u) := by
  cases hv : (x m).value with
  | mk r t =>
    cases r with
    | error e' =>
      rw [exec_bind_error hv] at h
      cases h
      exact .inl rfl
    | ok a =>
      rw [exec_bind_ok hv] at h
      exact .inr ⟨a, t, rfl, h⟩

namespace Total
variable {x : Exec γ δ α} {f : α → Exec γ δ β}

theorem pure (a : α) : Total (Pure.pure a : Exec γ δ α) := fun m => ⟨a, m, rfl⟩

theorem no_error (hx : Total x) {e : Exception} : (x m).value ≠ (.error e, t) := fun h => by
  obtain ⟨a, u, ha⟩ := hx m
  rw [ha] at h
  cases h

theorem lift (x : Reported α) : Total (liftM x : Exec γ δ α) := fun m => ⟨x.value, m, rfl⟩

theorem plain (x : Run γ δ α) : Total (R3000.plain x) := fun _ => ⟨_, _, rfl⟩

theorem modify (g : Machine γ δ → Machine γ δ) : Total (modify g : Exec γ δ Unit) :=
  fun m => ⟨(), g m, rfl⟩

theorem bind (hx : Total x) (hf : ∀ a, Total (f a)) : Total (x >>= f) := by
  intro m
  obtain ⟨a, t, h⟩ := hx m
  obtain ⟨b, u, k⟩ := hf a t
  exact ⟨b, u, by rw [exec_bind_ok h, k]⟩

theorem get_bind {f : Machine γ δ → Exec γ δ β} (hf : ∀ m, Total (f m)) : Total (get >>= f) :=
  bind (fun m => ⟨m, m, rfl⟩) hf

/-- From a machine for which the rest raises no exception. -/
theorem of_get {f : Machine γ δ → Exec γ δ β} (hf : Total (f m)) :
    ∃ a t, ((get >>= f : Exec γ δ β) m).value = (.ok a, t) :=
  hf m

end Total

namespace Precise
variable {x : Exec γ δ α} {f : α → Exec γ δ β}

theorem of_kept (h : Moves (kept noPort) x m) : Precise x m := by
  intro e t hx
  simp only [Moves] at h
  rw [hx] at h
  exact h

theorem of_total (h : Total x) : Precise x m := by
  intro e t hx
  obtain ⟨a, u, ha⟩ := h m
  rw [ha] at hx
  cases hx

/-- What only looks at the machine may go before. -/
theorem after (hx : Moves (kept noPort) x m)
    (hf : ∀ a t, (x m).value = (.ok a, t) → Precise (f a) t) : Precise (x >>= f) m := by
  intro e u h
  simp only [Moves] at hx
  cases hv : (x m).value with
  | mk r t =>
    rw [hv] at hx
    cases r with
    | ok a =>
      rw [exec_bind_ok hv] at h ⊢
      exact (kept noPort).trans hx (hf a t hv e u h)
    | error e' =>
      rw [exec_bind_error hv] at h ⊢
      cases h
      exact hx

/-- What raises no exception may follow. -/
theorem before (hx : Precise x m) (hf : ∀ a, Total (f a)) : Precise (x >>= f) m := by
  intro e u h
  cases hv : (x m).value with
  | mk r t =>
    cases r with
    | ok a =>
      obtain ⟨b, v, hb⟩ := hf a t
      rw [exec_bind_ok hv, hb] at h
      cases h
    | error e' =>
      rw [exec_bind_error hv] at h ⊢
      cases h
      exact hx e u hv

theorem get_bind {f : Machine γ δ → Exec γ δ β} (hf : Precise (f m) m) : Precise (get >>= f) m :=
  after ((kept noPort).still m []) fun a t h => by cases h; exact hf

end Precise

/-- The answer to a question to the bus, where that changes nothing when it is refused. -/
theorem ask_precise {x : Bus.Op δ (Except BusError α)} (access : Access) (vaddr : UInt32)
    (hx : ∀ e b, (x m.bus).value = (.error e, b) → Moves (Bus.kept noPort) x m.bus) :
    Precise (do answer access vaddr (← plain (onBus x))) m := by
  have hask : ∀ r b, (x m.bus).value = (r, b) →
      (plain (onBus x) m).value = (.ok r, { m with bus := b }) := by
    intro r b h
    show (Except.ok (x m.bus).value.1, { m with bus := (x m.bus).value.2 }) = _
    rw [h]
  cases hv : (x m.bus).value with
  | mk r b =>
    cases r with
    | ok a =>
      intro e u h
      rw [exec_bind_ok (hask _ b hv)] at h
      cases h
    | error e =>
      exact .after (.plain (kept_onBus (hx e b hv))) fun _ _ _ => .of_kept (answer_kept _ _ _)

theorem busRead_precise (access : Access) (vaddr addr : UInt32) (w : Width) :
    Precise (busRead access vaddr addr w) m :=
  ask_precise access vaddr fun _ _ h => Bus.read_error h

theorem cachedLoad_precise (vaddr addr : UInt32) (w : Width) :
    Precise (cachedLoad (γ := γ) (δ := δ) vaddr addr w) m := by
  refine .get_bind ?_
  split
  · exact .of_total (.bind (.lift _) fun _ => .pure _)
  · refine .before (busRead_precise .load vaddr addr w) fun value => ?_
    split
    · exact .bind (.plain _) fun _ => .pure _
    · exact .pure _

theorem load_precise (vaddr : UInt32) (w : Width) :
    Precise (load (γ := γ) (δ := δ) vaddr w) m := by
  refine .after (checkDataBreakpoint_kept _ _) fun _ _ _ =>
    .after (checkAccess_kept _ _ _) fun _ _ _ => .get_bind ?_
  dsimp only
  split
  · split
    · exact .of_total (.pure _)
    · exact .of_kept (note_throw_kept _ _)
  split
  · exact .of_total (.pure _)
  split
  · exact .of_total (.pure _)
  split
  · exact cachedLoad_precise _ _ _
  · exact busRead_precise _ _ _ _

theorem isolatedStore_total (addr value : UInt32) (w : Width) :
    Total (isolatedStore (γ := γ) (δ := δ) addr value w) := by
  refine .get_bind fun m => ?_
  dsimp only
  split
  · split
    · exact .bind (.lift _) fun _ => .plain _
    · exact .plain _
  split
  · exact .plain _
  · exact .lift _

/-- A question to the bus that is never refused. -/
theorem ask_total {x : Bus.Op δ (Except BusError α)} (access : Access) (vaddr : UInt32)
    (hx : ∀ b, ∃ a t, (x b).value = (.ok a, t)) :
    Total (do answer access vaddr (← plain (onBus x)) : Exec γ δ α) := by
  intro m
  obtain ⟨a, b, h⟩ := hx m.bus
  have hask : (plain (onBus x) m).value = (.ok (.ok a), { m with bus := b }) := by
    show (Except.ok (x m.bus).value.1, { m with bus := (x m.bus).value.2 }) = _
    rw [h]
  exact ⟨a, { m with bus := b }, by rw [exec_bind_ok hask]; rfl⟩

theorem writeClaimed_total {addr : UInt32} (h : ¬Bus.unclaimed addr) (vaddr value : UInt32)
    (w : Width) :
    Total (do answer .store vaddr (← plain (onBus (Bus.write addr value w))) : Exec γ δ Unit) :=
  ask_total .store vaddr fun b => ⟨(), Bus.write_claimed h value w b⟩

theorem claimed_of_lt {addr : UInt32} (h : addr < ramWindowEnd) : ¬Bus.unclaimed addr := by
  unfold Bus.unclaimed Bus.Region.of
  rw [if_pos h]
  exact nofun

theorem write_precise (vaddr value : UInt32) (w : Width) :
    Precise (write (γ := γ) (δ := δ) vaddr value w) m := by
  refine .get_bind ?_
  dsimp only
  split
  · split
    · exact .of_total (.bind (.lift _) fun _ => .plain _)
    · exact .of_kept (note_throw_kept _ _)
  split
  · exact .of_total (isolatedStore_total _ _ _)
  split
  · exact .of_total (.plain _)
  split
  · rename_i h
    have hlt : translate vaddr < ramWindowEnd := by
      simp only [Bool.and_eq_true, decide_eq_true_eq] at h
      exact h.2
    exact .of_total (.bind (.plain _) fun _ => writeClaimed_total (claimed_of_lt hlt) _ _ _)
  · exact ask_precise _ _ fun _ _ h => Bus.write_error h

theorem store_precise (vaddr value : UInt32) (w : Width) :
    Precise (store (γ := γ) (δ := δ) vaddr value w) m :=
  .after (checkDataBreakpoint_kept _ _) fun _ _ _ =>
    .after (checkAccess_kept _ _ _) fun _ _ _ => write_precise _ _ _

/-- What selects where a store goes besides its address. -/
def modes (γ δ : Type) : Motion (Machine γ δ) where
  holds m _ t := t.cpu.regs.cop0 = m.cpu.regs.cop0 ∧ t.cpu.caches.biu = m.cpu.caches.biu
  still _ _ := ⟨rfl, rfl⟩
  trans h k := ⟨k.1.trans h.1, k.2.trans h.2⟩

def foreign (m : Machine γ δ) (vaddr : UInt32) : Bool :=
  let addr := translate vaddr
  if Segment.of vaddr = .kseg2 then !onBiu addr
  else
    !m.cpu.regs.cop0.status.isc
      && !((Segment.of vaddr).cached && DataArray.covers addr && m.cpu.caches.biu.scratchpad)
      && Bus.unclaimed addr

theorem foreign_base (m : Machine γ δ) (vaddr : UInt32) :
    m.foreign (Lane.base vaddr) = m.foreign vaddr := by
  unfold foreign onBiu
  rw [Segment.of_base, translate_base]
  dsimp only
  rw [DataArray.covers_base, Bus.unclaimed_base, Lane.base_base]

theorem ask_modes {x : Bus.Op δ (Except BusError α)} (access : Access) (vaddr : UInt32) :
    Moves (modes γ δ) (do answer access vaddr (← plain (onBus x)) : Exec γ δ α) m := by
  refine .exec_bind (.plain ⟨rfl, rfl⟩) fun r t _ => ?_
  cases r with
  | ok a => exact .pure _
  | error e =>
    exact .exec_lift_bind ((modes γ δ).quiet (.busFault access vaddr e) t) ((modes γ δ).still t [])

theorem write_modes {vaddr : UInt32} (h : Segment.of vaddr ≠ .kseg2) (value : UInt32) (w : Width) :
    Moves (modes γ δ) (write vaddr value w) m := by
  refine .exec_get_bind ?_
  dsimp only
  rw [if_neg h]
  split
  · refine .exec_get_bind ?_
    dsimp only
    split
    · split
      · exact .exec_lift_bind ((modes γ δ).quiet (.invalidateLine _ _) m) (.plain ⟨rfl, rfl⟩)
      · exact .plain ⟨rfl, rfl⟩
    split
    · exact .plain ⟨rfl, rfl⟩
    · exact .exec_lift ((modes γ δ).still m [_])
  split
  · exact .plain ⟨rfl, rfl⟩
  split
  · exact .exec_bind (.plain ⟨rfl, rfl⟩) fun _ _ _ => ask_modes _ _
  · exact ask_modes _ _

/-- A store does not change where the next one in its segment goes. -/
theorem foreign_write {vaddr base : UInt32} (hb : Segment.of vaddr = Segment.of base) (value : UInt32)
    (w : Width) : (write vaddr value w m).value.2.foreign base = m.foreign base := by
  simp only [foreign]
  by_cases hs : Segment.of base = .kseg2
  · rw [if_pos hs, if_pos hs]
  · obtain ⟨hcop0, hbiu⟩ := write_modes (m := m) (hb ▸ hs) value w
    rw [if_neg hs, if_neg hs, hcop0, hbiu]

theorem write_foreign {vaddr : UInt32} (h : m.foreign vaddr) (value : UInt32) (w : Width) :
    Moves (kept noPort) (write vaddr value w) m := by
  simp only [foreign] at h
  refine .exec_get_bind ?_
  dsimp only at h ⊢
  split at h
  · rw [if_pos ‹_›, if_neg (by simpa using h)]
    exact note_throw_kept _ _
  · simp only [Bool.and_eq_true, Bool.not_eq_true'] at h
    obtain ⟨⟨hisc, hscratch⟩, hbus⟩ := h
    have hram : ¬(((Segment.of vaddr).cached && m.cpu.caches.biu.dataCache &&
        decide (translate vaddr < ramWindowEnd)) = true) := by
      intro hc
      simp only [Bool.and_eq_true, decide_eq_true_eq] at hc
      exact claimed_of_lt hc.2 hbus
    rw [if_neg ‹_›, hisc, if_neg nofun, hscratch, if_neg nofun, if_neg hram]
    exact .exec_bind (.plain (kept_onBus (Bus.write_unclaimed hbus value w))) fun _ _ _ =>
      answer_kept _ _ _

theorem write_own {vaddr : UInt32} (h : ¬m.foreign vaddr) (value : UInt32) (w : Width) :
    ∃ a t, (write vaddr value w m).value = (.ok a, t) := by
  simp only [foreign] at h
  refine Total.of_get ?_
  dsimp only at h ⊢
  split at h
  · rw [if_pos ‹_›, if_pos (by simpa using h)]
    exact .bind (.lift _) fun _ => .plain _
  rw [if_neg ‹_›]
  split
  · exact isolatedStore_total _ _ _
  split
  · exact .plain _
  rename_i hisc hscratch
  have hbus : ¬Bus.unclaimed (translate vaddr) := by
    rw [Bool.eq_false_iff.mpr hisc, Bool.eq_false_iff.mpr hscratch] at h
    exact h
  split
  · exact .bind (.plain _) fun _ => writeClaimed_total hbus _ _ _
  · exact writeClaimed_total hbus _ _ _

section Pieces
variable {base : UInt32} {pieces : List (UInt32 × Width)}

/-- The pieces of a word go where the word goes. -/
theorem foreign_piece {p : UInt32 × Width} (hp : Lane.base (base + p.1) = base) (m : Machine γ δ) :
    m.foreign (base + p.1) = m.foreign base := by
  rw [← foreign_base, hp]

theorem segment_piece {p : UInt32 × Width} (hp : Lane.base (base + p.1) = base) :
    Segment.of (base + p.1) = Segment.of base := by
  rw [← Segment.of_base, hp]

theorem writePieces_foreign (hp : ∀ p ∈ pieces, Lane.base (base + p.1) = base)
    (h : m.foreign base) (value : UInt32) :
    Moves (kept noPort)
      (pieces.forM fun p => write (base + p.1) (value >>> (8 * p.1)) p.2 : Exec γ δ PUnit) m := by
  induction pieces generalizing m with
  | nil => exact .pure _
  | cons p pieces ih =>
    have hbase := hp p List.mem_cons_self
    refine .exec_bind (write_foreign (foreign_piece hbase m ▸ h) _ _) fun _ t ht =>
      ih (fun q hq => hp q (List.mem_cons_of_mem p hq)) ?_
    have hkeep := foreign_write (m := m) (segment_piece hbase) (value >>> (8 * p.1)) p.2
    rw [ht] at hkeep
    exact hkeep.trans h

theorem writePieces_own (hp : ∀ p ∈ pieces, Lane.base (base + p.1) = base)
    (h : ¬m.foreign base) (value : UInt32) :
    ∃ a t, ((pieces.forM fun p => write (base + p.1) (value >>> (8 * p.1)) p.2 :
      Exec γ δ PUnit) m).value = (.ok a, t) := by
  induction pieces generalizing m with
  | nil => exact ⟨_, _, rfl⟩
  | cons p pieces ih =>
    have hbase := hp p List.mem_cons_self
    obtain ⟨a, t, ht⟩ := write_own (foreign_piece hbase m ▸ h) (value >>> (8 * p.1)) p.2
    have hkeep := foreign_write (m := m) (segment_piece hbase) (value >>> (8 * p.1)) p.2
    rw [ht] at hkeep
    obtain ⟨b, u, hu⟩ := ih (m := t) (fun q hq => hp q (List.mem_cons_of_mem p hq)) (hkeep ▸ h)
    exact ⟨b, u, by rw [List.forM, exec_bind_ok ht, hu]⟩

/-- Stores into one word: either no part of the machine is written, or no exception is raised. -/
theorem writePieces_precise (hp : ∀ p ∈ pieces, Lane.base (base + p.1) = base) (value : UInt32) :
    Precise (pieces.forM fun p => write (base + p.1) (value >>> (8 * p.1)) p.2 : Exec γ δ PUnit) m := by
  by_cases h : m.foreign base
  · exact .of_kept (writePieces_foreign hp h value)
  · obtain ⟨a, t, ht⟩ := writePieces_own hp h value
    intro e u hu
    rw [ht] at hu
    cases hu

end Pieces

theorem storePieces_precise (vaddr value : UInt32) {l : Fin 4} {pieces : List (UInt32 × Width)}
    (hp : ∀ p ∈ pieces, p ∈ Lane.upTo l ++ Lane.onward l) :
    Precise (storePieces (γ := γ) (δ := δ) vaddr value pieces) m :=
  .after (checkDataBreakpoint_kept _ _) fun _ _ _ =>
    .after (checkAccess_kept _ _ _) fun _ _ _ =>
      writePieces_precise (fun p hm => Lane.base_add_piece (hp p hm) vaddr) value

end R3000.Machine
