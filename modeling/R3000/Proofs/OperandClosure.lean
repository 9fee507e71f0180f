import R3000.Proofs.Operands
import R3000.Proofs.Precision

/-! # What the work of an instruction is made of

Once its operands have been read, an instruction looks only at other parts of the machine than the
registers, changes only those, and raises only exceptions of its own; in user mode all its accesses go
by addresses in kuseg. A property of computations from a machine that sequencing keeps and that the
operations below have is one of the work of every instruction and of every fetch. Moves to and commands
of the system control coprocessor are not among them. -/
namespace R3000

/-- What the registers can show of an exception: a code and a coprocessor that fit their fields, a bad
address exactly for address errors, and the handlers that only the trap of a breakpoint has. -/
structure Exception.Proper (e : Exception) : Prop where
  code : e.code.toNat < 32
  cop : e.cop.toNat < 4
  badVaddr : e.badVaddr.isSome ↔ e.code = 4 ∨ e.code = 5
  handler : e.handler = .debug → e = .debug

/-- An exception of the instruction itself, which no interrupt is. -/
structure Exception.Synchronous (e : Exception) : Prop extends e.Proper where
  code_ne : e.code ≠ 0

theorem Exception.Proper.interrupt : Exception.interrupt.Proper :=
  ⟨by decide, by decide, by decide, by decide⟩

namespace Exception.Synchronous

theorem addressError (access : Access) (vaddr : UInt32) :
    (access.addressError vaddr).Synchronous := by
  cases access <;> refine ⟨⟨?_, ?_, ?_, nofun⟩, ?_⟩ <;>
    simp [Access.addressError, addressLoad, addressStore]

theorem busException (access : Access) : access.busException.Synchronous := by
  cases access <;> exact ⟨⟨by decide, by decide, by decide, by decide⟩, by decide⟩

theorem busFault (access : Access) (vaddr : UInt32) (e : BusError) :
    (Machine.busFault access vaddr e).value.Synchronous := by
  cases e with
  | unmapped addr => exact addressError access vaddr
  | bus addr => exact busException access

theorem copUnusable (z : Cop) : (Exception.copUnusable (UInt32.ofNat z)).Synchronous := by
  refine ⟨⟨by simp [Exception.copUnusable], ?_, by simp [Exception.copUnusable], nofun⟩,
    by simp [Exception.copUnusable]⟩
  revert z
  decide

theorem overflow : Exception.overflow.Synchronous :=
  ⟨⟨by decide, by decide, by decide, by decide⟩, by decide⟩

theorem syscall : Exception.syscall.Synchronous :=
  ⟨⟨by decide, by decide, by decide, by decide⟩, by decide⟩

theorem breakpoint : Exception.breakpoint.Synchronous :=
  ⟨⟨by decide, by decide, by decide, by decide⟩, by decide⟩

theorem debug : Exception.debug.Synchronous :=
  ⟨⟨by decide, by decide, by decide, by decide⟩, by decide⟩

end Exception.Synchronous

section Accesses
variable (allowed : Bool → UInt32 → Prop)

/-- An access by a virtual address is allowed in every mode that the check of its segment lets pass. -/
def Admits (vaddr : UInt32) : Prop :=
  ∀ user : Bool, (user → Segment.of vaddr = .kuseg) → allowed user (translate vaddr)

/-- The same for a fetch, which may read the whole line. -/
def AdmitsFetch (pc : UInt32) : Prop :=
  ∀ user : Bool, (user → Segment.of pc = .kuseg) → allowed user (translate pc) ∧
    ∀ w, allowed user ((ICache.Address.of (translate pc)).wordAddr w)

end Accesses

def RegisterOp.usesUnit : RegisterOp → Bool
  | .muldiv _ | .mfhi | .mflo | .mthi | .mtlo => true
  | _ => false

def Instruction.usesUnit : Instruction → Bool
  | .register op _ => op.usesUnit
  | _ => false

namespace Machine
variable {γ δ α β : Type} {m t : Machine γ δ}

/-- The general registers, the program counter and the delay slots. -/
structure Front where
  gprs : Vector UInt32 31
  pc : UInt32
  slots : DelaySlots

def front (m : Machine γ δ) : Front := ⟨m.cpu.regs.gprs, m.cpu.regs.pc, m.cpu.slots⟩

def withFront (m : Machine γ δ) (k : Front) : Machine γ δ :=
  { m with
    cpu := { m.cpu with regs := { m.cpu.regs with gprs := k.gprs, pc := k.pc }, slots := k.slots } }

/-- The multiply and divide unit, the registers of its results, and the count of retired instructions
that it goes by. -/
structure Results where
  hi : UInt32
  lo : UInt32
  muldiv : MulDivUnit
  retired : UInt64

def results (m : Machine γ δ) : Results :=
  ⟨m.cpu.regs.hi, m.cpu.regs.lo, m.cpu.muldiv, m.cpu.clock.retired⟩

def withResults (m : Machine γ δ) (k : Results) : Machine γ δ :=
  { m with
    cpu := { m.cpu with
      regs := { m.cpu.regs with hi := k.hi, lo := k.lo }
      muldiv := k.muldiv
      clock := { m.cpu.clock with retired := k.retired } } }

def userMode (m : Machine γ δ) : Bool := m.cpu.regs.cop0.status.kuC

/-- A property of computations, each from a machine, that sequencing keeps and that the operations have
which instructions are made of. It is `allowed` in which mode to access which physical address. -/
structure ClosedAt (allowed : Bool → UInt32 → Prop)
    (P : (α : Type) → Exec γ δ α → Machine γ δ → Prop) : Prop where
  ret : ∀ {α : Type} (a : α) m, P α (pure a) m
  seq : ∀ {α β : Type} {x : Exec γ δ α} {f : α → Exec γ δ β} {m}, P α x m →
    (∀ a t, (x m).value = (.ok a, t) → P β (f a) t) → P β (x >>= f) m
  fail : ∀ {α : Type} {e : Exception} m, e.Synchronous → P α (throw e) m
  look : ∀ {β : Type} {f : Machine γ δ → Exec γ δ β} {m}, (∀ m k, f (m.withFront k) = f m) →
    P β (f m) m → P β (get >>= f) m
  report : ∀ {α : Type} {x : Reported α} m, x.Quiet → P α (liftM x) m
  hit : ∀ hits m, hits.toNat < 64 → P _ (modifyCop0 (·.record hits)) m
  writeHi : ∀ v m, P _ (modifyRegs ({ · with hi := v })) m
  writeLo : ∀ v m, P _ (modifyRegs ({ · with lo := v })) m
  writeCaches : ∀ f m, (m.userMode → (f m.cpu.caches).biu = m.cpu.caches.biu) →
    P _ (modifyCaches f) m
  issue : ∀ op a b m, P _ (issueMulDiv op a b) m
  resolve : ∀ m, P _ resolveMulDiv m
  await : ∀ m, P _ (plain awaitGte) m
  pass : ∀ cycles m, P _ (plain (spend cycles)) m
  command : ∀ f m, P _ (commandGte f) m
  writeGte : ∀ (f : Machine γ δ → γ) m, (∀ m k, f (m.withFront k) = f m) →
    P _ (modify fun m => { m with gteState := f m }) m
  busRead : ∀ addr w m, allowed m.userMode addr → P _ (plain (onBus (Bus.read addr w))) m
  busWrite : ∀ addr value w m, allowed m.userMode addr →
    P _ (plain (onBus (Bus.write addr value w))) m
  fetchLine : ∀ (c : ICache) addr m,
    (∀ w, allowed m.userMode ((ICache.Address.of addr).wordAddr w)) →
    P _ (plain (onBus (c.fetch addr fun a => Bus.read a .word))) m

/-- The same where the operations leave the multiply and divide unit alone. -/
structure ClosedBeside (allowed : Bool → UInt32 → Prop)
    (P : (α : Type) → Exec γ δ α → Machine γ δ → Prop) : Prop where
  ret : ∀ {α : Type} (a : α) m, P α (pure a) m
  seq : ∀ {α β : Type} {x : Exec γ δ α} {f : α → Exec γ δ β} {m}, P α x m →
    (∀ a t, (x m).value = (.ok a, t) → P β (f a) t) → P β (x >>= f) m
  fail : ∀ {α : Type} {e : Exception} m, e.Synchronous → P α (throw e) m
  look : ∀ {β : Type} {f : Machine γ δ → Exec γ δ β} {m}, (∀ m k, f (m.withFront k) = f m) →
    (∀ m k, f (m.withResults k) = f m) → P β (f m) m → P β (get >>= f) m
  report : ∀ {α : Type} {x : Reported α} m, x.Quiet → P α (liftM x) m
  hit : ∀ hits m, hits.toNat < 64 → P _ (modifyCop0 (·.record hits)) m
  writeCaches : ∀ f m, (m.userMode → (f m.cpu.caches).biu = m.cpu.caches.biu) →
    P _ (modifyCaches f) m
  await : ∀ m, P _ (plain awaitGte) m
  pass : ∀ cycles m, P _ (plain (spend cycles)) m
  command : ∀ f m, P _ (commandGte f) m
  writeGte : ∀ (f : Machine γ δ → γ) m, (∀ m k, f (m.withFront k) = f m) →
    (∀ m k, f (m.withResults k) = f m) → P _ (modify fun m => { m with gteState := f m }) m
  busRead : ∀ addr w m, allowed m.userMode addr → P _ (plain (onBus (Bus.read addr w))) m
  busWrite : ∀ addr value w m, allowed m.userMode addr →
    P _ (plain (onBus (Bus.write addr value w))) m
  fetchLine : ∀ (c : ICache) addr m,
    (∀ w, allowed m.userMode ((ICache.Address.of addr).wordAddr w)) →
    P _ (plain (onBus (c.fetch addr fun a => Bus.read a .word))) m

theorem ClosedAt.beside {allowed : Bool → UInt32 → Prop}
    {P : (α : Type) → Exec γ δ α → Machine γ δ → Prop} (h : ClosedAt allowed P) :
    ClosedBeside allowed P where
  ret := h.ret
  seq := h.seq
  fail := h.fail
  look hk _ hf := h.look hk hf
  report := h.report
  hit := h.hit
  writeCaches := h.writeCaches
  await := h.await
  pass := h.pass
  command := h.command
  writeGte f m hk _ := h.writeGte f m hk
  busRead := h.busRead
  busWrite := h.busWrite
  fetchLine := h.fetchLine

theorem requireCop_ok {z : Cop} {a : Unit} (h : (requireCop z m).value = (.ok a, t)) : t = m := by
  change ((if !(present z && m.cpu.regs.cop0.status.usable z) then do
      note (.copUnusable z)
      throw (.copUnusable (UInt32.ofNat z))
    else pure () : Exec γ δ Unit) m).value = _ at h
  split at h
  · cases h
  · cases h
    rfl

/-- What passes the check of an access from user mode lies in kuseg. -/
theorem checkAccess_ok {access : Access} {vaddr : UInt32} {w : Width} {a : Unit}
    (h : (checkAccess access vaddr w m).value = (.ok a, t)) :
    t = m ∧ (m.userMode → Segment.of vaddr = .kuseg) := by
  unfold checkAccess at h
  cases hw : w.aligned vaddr with
  | false =>
    rw [hw] at h
    cases h
  | true =>
    rw [hw] at h
    change ((if (Segment.of vaddr).kernel && m.userMode then do
        note (.privileged access (Segment.of vaddr) vaddr)
        throw (access.addressError vaddr)
      else pure () : Exec γ δ Unit) m).value = _ at h
    split at h
    · cases h
    · cases h
      refine ⟨rfl, fun hu => ?_⟩
      cases hs : Segment.of vaddr <;> simp_all [Segment.kernel]

theorem cop0_write (vaddr value : UInt32) (w : Width) :
    (write vaddr value w m).value.2.cpu.regs.cop0 = m.cpu.regs.cop0 := by
  by_cases hs : Segment.of vaddr = .kseg2
  · have h : write vaddr value w m =
        ((if onBiu (translate vaddr) then do
          let caches ← m.cpu.caches.setBiu
            (Lane.insert m.cpu.caches.biu.word value (translate vaddr) w)
          modifyCaches fun _ => caches
        else do
          note (.kseg2Store (translate vaddr))
          throw (Access.store.addressError vaddr) : Exec γ δ Unit) m) := by
      unfold write
      simp only [hs, if_true]
      rfl
    rw [h]
    split <;> rfl
  · exact (write_modes hs value w).1

namespace ClosedBeside
variable {allowed : Bool → UInt32 → Prop} {P : (α : Type) → Exec γ δ α → Machine γ δ → Prop}
  (h : ClosedBeside allowed P)
include h

theorem note_seq {n : Notice} {f : Unit → Exec γ δ β} (hf : P β (f ()) m) :
    P β (liftM (note n) >>= f) m := by
  refine h.seq (h.report m (.note n)) fun a t ht => ?_
  cases ht
  exact hf

/-- A check that may raise an exception goes before the rest. -/
theorem check {c : Prop} [Decidable c] {n : Notice} {e : Exception} (he : e.Synchronous)
    {x : Exec γ δ β} (hx : ¬c → P β x m) :
    P β (if c then do note n; let y ← throw e; (fun _ : PUnit => x) y else x) m := by
  split
  · exact h.note_seq (h.seq (h.fail m he) fun _ _ ht => by cases ht)
  · exact hx ‹_›

/-- A check that may raise an exception ends a computation. -/
theorem check_last {c : Prop} [Decidable c] {n : Notice} {e : Exception} (he : e.Synchronous) :
    P Unit (if c then do note n; throw e else pure ()) m := by
  split
  · exact h.note_seq (h.fail m he)
  · exact h.ret () m

theorem answer (access : Access) (vaddr : UInt32) (r : Except BusError α) :
    P α (Machine.answer access vaddr r) m := by
  cases r with
  | ok a => exact h.ret a m
  | error e =>
    refine h.seq (h.report m (.busFault access vaddr e)) fun e' t ht => ?_
    cases ht
    exact h.fail m (.busFault access vaddr e)

theorem busReadAnswer (access : Access) (vaddr : UInt32) {addr : UInt32} (w : Width)
    (ha : allowed m.userMode addr) : P _ (Machine.busRead access vaddr addr w) m :=
  h.seq (h.busRead addr w m ha) fun r _ _ => h.answer access vaddr r

theorem checkDataBreakpoint (access : Access) (vaddr : UInt32) :
    P _ (Machine.checkDataBreakpoint access vaddr) m := by
  have hhit : (Cop0.dataHit access).toNat < 64 := by cases access <;> decide
  refine h.look (fun _ _ => rfl) (fun _ _ => rfl) ?_
  dsimp only
  split
  · refine h.seq (h.hit _ m hhit) fun _ t _ => h.note_seq ?_
    split
    · exact h.fail t .debug
    · exact h.ret _ t
  · exact h.ret _ m

theorem checkAccess (access : Access) (vaddr : UInt32) (w : Width) :
    P _ (Machine.checkAccess access vaddr w) m :=
  h.check (.addressError access vaddr) fun _ =>
    h.look (fun _ _ => rfl) (fun _ _ => rfl) (h.check_last (.addressError access vaddr))

theorem cachedLoad (vaddr : UInt32) {addr : UInt32} (w : Width) (ha : allowed m.userMode addr) :
    P _ (Machine.cachedLoad vaddr addr w) m := by
  refine h.look (fun _ _ => rfl) (fun _ _ => rfl) ?_
  split
  · exact h.note_seq (h.ret _ m)
  · refine h.seq (h.busReadAnswer .load vaddr w ha) fun value t _ => ?_
    split
    · exact h.seq (h.writeCaches _ t fun _ => rfl) fun _ u _ => h.ret _ u
    · exact h.ret _ t

theorem load {vaddr : UInt32} (hv : Admits allowed vaddr) (w : Width) :
    P _ (Machine.load vaddr w) m := by
  refine h.seq (h.checkDataBreakpoint .load vaddr) fun _ t _ =>
    h.seq (h.checkAccess .load vaddr w) fun _ u hu => h.look (fun _ _ => rfl) (fun _ _ => rfl) ?_
  obtain ⟨rfl, hseg⟩ := checkAccess_ok hu
  have ha := hv u.userMode hseg
  dsimp only
  split
  · split
    · exact h.ret _ u
    · exact h.note_seq (h.fail u (.addressError .load vaddr))
  split
  · exact h.ret _ u
  split
  · exact h.ret _ u
  split
  · exact h.cachedLoad vaddr w ha
  · exact h.busReadAnswer .load vaddr w ha

theorem isolatedStore (addr value : UInt32) (w : Width) :
    P _ (Machine.isolatedStore addr value w) m := by
  refine h.look (fun _ _ => rfl) (fun _ _ => rfl) ?_
  dsimp only
  split
  · split
    · exact h.seq (h.report m (.invalidateLine _ addr)) fun _ t _ => h.writeCaches _ t fun _ => rfl
    · exact h.writeCaches _ m fun _ => rfl
  split
  · exact h.writeCaches _ m fun _ => rfl
  · exact h.report m (.note _)

theorem write {vaddr : UInt32} (value : UInt32) (w : Width)
    (ha : allowed m.userMode (translate vaddr)) (hv : m.userMode → Segment.of vaddr = .kuseg) :
    P _ (Machine.write vaddr value w) m := by
  have hbus : ∀ t : Machine γ δ, t.userMode = m.userMode → P _ (do
      Machine.answer .store vaddr (← plain (onBus (Bus.write (translate vaddr) value w)))) t :=
    fun t ht => h.seq (h.busWrite _ value w t (ht ▸ ha)) fun r _ _ => h.answer .store vaddr r
  refine h.look (fun _ _ => rfl) (fun _ _ => rfl) ?_
  dsimp only
  split
  · rename_i hs
    have hkernel : ¬m.userMode := fun hm => by cases hs.symm.trans (hv hm)
    split
    · refine h.seq (h.report m (.setBiu _ _)) fun _ t ht => h.writeCaches _ t fun hm => ?_
      cases ht
      exact absurd hm hkernel
    · exact h.note_seq (h.fail m (.addressError .store vaddr))
  split
  · exact h.isolatedStore _ _ _
  split
  · exact h.writeCaches _ m fun _ => rfl
  split
  · refine h.seq (h.writeCaches _ m fun _ => rfl) fun _ t ht => hbus t ?_
    cases ht
    rfl
  · exact hbus m rfl

theorem store {vaddr : UInt32} (hv : Admits allowed vaddr) (value : UInt32) (w : Width) :
    P _ (Machine.store vaddr value w) m := by
  refine h.seq (h.checkDataBreakpoint .store vaddr) fun _ t _ =>
    h.seq (h.checkAccess .store vaddr w) fun _ u hu => ?_
  obtain ⟨rfl, hseg⟩ := checkAccess_ok hu
  exact h.write value w (hv u.userMode hseg) hseg

theorem writePieces {base : UInt32} (value : UInt32) {pieces : List (UInt32 × Width)}
    (hp : ∀ p ∈ pieces, Lane.base (base + p.1) = base)
    (ha : ∀ p ∈ pieces, Admits allowed (base + p.1)) (hv : m.userMode → Segment.of base = .kuseg) :
    P PUnit (pieces.forM fun p => Machine.write (base + p.1) (value >>> (8 * p.1)) p.2) m := by
  induction pieces generalizing m with
  | nil => exact h.ret _ m
  | cons p pieces ih =>
    have hseg : m.userMode → Segment.of (base + p.1) = .kuseg :=
      segment_piece (hp p List.mem_cons_self) ▸ hv
    refine h.seq (h.write _ p.2 (ha p List.mem_cons_self m.userMode hseg) hseg) fun _ t ht =>
      ih (fun q hq => hp q (List.mem_cons_of_mem p hq)) (fun q hq => ha q (List.mem_cons_of_mem p hq))
        fun hm => hv ?_
    have hcop0 := cop0_write (m := m) (base + p.1) (value >>> (8 * p.1)) p.2
    rw [ht] at hcop0
    simp only [userMode] at hm ⊢
    rw [← hcop0]
    exact hm

theorem storePieces (vaddr value : UInt32) {l : Fin 4} {pieces : List (UInt32 × Width)}
    (hp : ∀ p ∈ pieces, p ∈ Lane.upTo l ++ Lane.onward l)
    (ha : ∀ v ∈ pieces.map (fun p => Lane.base vaddr + p.1), Admits allowed v) :
    P _ (Machine.storePieces vaddr value pieces) m := by
  refine h.seq (h.checkDataBreakpoint .store vaddr) fun _ t _ =>
    h.seq (h.checkAccess .store _ .word) fun _ u hu => ?_
  obtain ⟨rfl, hseg⟩ := checkAccess_ok hu
  exact h.writePieces value (fun p hm => Lane.base_add_piece (hp p hm) vaddr)
    (fun p hm => ha _ (List.mem_map_of_mem hm)) hseg

theorem executeStore {op : Store} {vaddr : UInt32} (ha : ∀ v ∈ op.accesses vaddr, Admits allowed v)
    (value : UInt32) : P _ (Machine.executeStore op vaddr value) m := by
  cases op with
  | sb | sh | sw => exact h.store (ha _ List.mem_cons_self) _ _
  | swl =>
    rw [executeStore_swl]
    exact h.storePieces _ _ (fun _ hp => List.mem_append_left _ hp) ha
  | swr =>
    rw [executeStore_swr]
    exact h.storePieces _ _ (fun _ hp => List.mem_append_right _ hp) ha

theorem requireCop (z : Cop) : P _ (Machine.requireCop z) m :=
  h.look (fun _ _ => rfl) (fun _ _ => rfl) (h.check_last (.copUnusable z))

theorem formAddress (o : Operands) (f : Immediate) : P _ (Machine.formAddress o f) m :=
  h.note_seq (h.ret _ m)

theorem brought {op : Load} {vaddr : UInt32} (ha : Admits allowed (op.access vaddr))
    (current : UInt32) : P _ (Machine.brought op current vaddr) m := by
  cases op with
  | lb | lh | lwl | lwr => exact h.seq (h.load ha _) fun _ t _ => h.ret _ t
  | lbu | lhu | lw => exact h.load ha _

theorem resultOf (r : Reg) (value : Option UInt32) : P _ (Machine.resultOf r value) m := by
  cases value with
  | some v => exact h.ret _ m
  | none => exact h.fail m .overflow

theorem performLoadCop {o : Operands} {z : Cop} {f : Immediate}
    (ha : ∀ v ∈ z.accesses (o.address f), Admits allowed v) :
    P _ (Machine.performLoadCop o z f) m := by
  refine h.seq (h.requireCop z) fun _ t _ => h.seq (h.formAddress o f) fun vaddr u hu => ?_
  cases hu
  split
  · subst z
    exact h.seq (h.load (ha _ List.mem_cons_self) .word) fun value v _ =>
      h.writeGte _ v (fun _ _ => rfl) fun _ _ => rfl
  · exact h.report _ (.note _)

theorem performStoreCop {o : Operands} {z : Cop} {f : Immediate}
    (ha : ∀ v ∈ z.accesses (o.address f), Admits allowed v) :
    P _ (Machine.performStoreCop o z f) m := by
  refine h.seq (h.requireCop z) fun _ t _ => h.seq (h.formAddress o f) fun vaddr u hu => ?_
  cases hu
  split
  · subst z
    exact h.seq (h.await _) fun _ v _ =>
      h.look (fun _ _ => rfl) (fun _ _ => rfl) (h.store (ha _ List.mem_cons_self) _ _)
  · exact h.report _ (.note _)

theorem performImmediate {o : Operands} {op : ImmediateOp} {f : Immediate}
    (ha : ∀ v ∈ (Instruction.immediate op f).accesses o, Admits allowed v) (pc : UInt32) :
    P _ (Machine.performImmediate o pc op f) m := by
  cases op with
  | alu op => exact h.resultOf _ _
  | branch op => exact h.ret _ m
  | load op =>
    refine h.seq (h.formAddress o f) fun vaddr t ht => ?_
    cases ht
    exact h.seq (h.brought (ha _ List.mem_cons_self) _) fun value u _ => h.ret _ u
  | store op =>
    refine h.seq (h.formAddress o f) fun vaddr t ht => ?_
    cases ht
    exact h.seq (h.executeStore ha _) fun _ u _ => h.ret _ u
  | lwc z => exact h.seq (h.performLoadCop ha) fun _ t _ => h.ret _ t
  | swc z => exact h.seq (h.performStoreCop ha) fun _ t _ => h.ret _ t

theorem performJump (o : Operands) (pc : UInt32) (op : JumpOp) (f : Jump) :
    P _ (Machine.performJump o pc op f) m := by
  cases op with
  | j => exact h.ret _ m
  | jal => exact h.note_seq (h.ret _ m)

theorem performCop2 (o : Operands) (pc : UInt32) (f : Register) :
    P _ (Machine.performCop2 o pc f) m := by
  refine h.seq (h.requireCop _) fun _ t _ => ?_
  split
  · exact h.seq (h.command f t) fun _ u _ => h.ret _ u
  split
  · exact h.seq (h.await t) fun _ u _ => h.look (fun _ _ => rfl) (fun _ _ => rfl) (h.ret _ u)
  · exact h.seq (h.await t) fun _ u _ => h.look (fun _ _ => rfl) (fun _ _ => rfl) (h.ret _ u)
  · exact h.seq (h.writeGte _ t (fun _ _ => rfl) fun _ _ => rfl) fun _ u _ => h.ret _ u
  · exact h.seq (h.writeGte _ t (fun _ _ => rfl) fun _ _ => rfl) fun _ u _ => h.ret _ u
  · exact h.ret _ t
  · exact h.note_seq (h.ret _ t)

/-- What the multiply and divide unit does is left to show, and what moves to and commands of the system
control coprocessor do. -/
theorem performRegister (o : Operands) (pc : UInt32) (op : RegisterOp) (f : Register)
    (hu : op.usesUnit → P _ (Machine.performRegister o pc op f) m)
    (hc : op = .cop .system → P _ (performCop0 o pc f) m) :
    P _ (Machine.performRegister o pc op f) m := by
  cases op with
  | alu op => exact h.resultOf _ _
  | shift op | shiftBy op | jr => exact h.ret _ m
  | muldiv | mfhi | mflo | mthi | mtlo => exact hu rfl
  | jalr => exact h.note_seq (h.ret _ m)
  | syscall => exact h.note_seq (h.fail m .syscall)
  | brk => exact h.note_seq (h.fail m .breakpoint)
  | cop z =>
    match z with
    | 0 => exact hc rfl
    | 2 => exact h.performCop2 o pc f
    | 1 | 3 => exact h.seq (h.requireCop _) fun _ t _ => h.ret _ t

theorem perform {o : Operands} {i : Instruction} (ha : ∀ v ∈ i.accesses o, Admits allowed v)
    (pc : UInt32) (hu : i.usesUnit → P _ (Machine.perform o pc i) m)
    (hc : ∀ f, i = .register (.cop .system) f → P _ (performCop0 o pc f) m) :
    P _ (Machine.perform o pc i) m := by
  cases i with
  | immediate op f => exact h.performImmediate ha pc
  | jump op f => exact h.performJump o pc op f
  | register op f =>
    refine h.performRegister o pc op f hu fun ho => hc f ?_
    rw [ho]

theorem checkExecutionBreakpoint (pc : UInt32) : P _ (Machine.checkExecutionBreakpoint pc) m := by
  refine h.look (fun _ _ => rfl) (fun _ _ => rfl) ?_
  dsimp only
  split
  · refine h.seq (h.hit _ m (by decide)) fun _ t _ => h.note_seq ?_
    split
    · exact h.fail t .debug
    · exact h.ret _ t
  · exact h.ret _ m

theorem fetch {pc : UInt32} (hpc : AdmitsFetch allowed pc) : P _ (Machine.fetch pc) m := by
  refine h.look (fun _ _ => rfl) (fun _ _ => rfl) (h.check (.addressError .fetch pc) fun hc => ?_)
  obtain ⟨ha, hline⟩ := hpc m.userMode fun hm => by
    have huser : m.cpu.regs.cop0.status.kuC = true := hm
    cases hs : Segment.of pc <;> simp_all [Segment.kernel]
  dsimp only
  split
  · refine h.seq (h.fetchLine _ _ m hline) fun r t _ => h.seq (h.writeCaches _ t fun _ => rfl)
      fun _ u _ => h.seq (h.answer .fetch pc r.1) fun f v _ => ?_
    split
    · exact h.seq (h.pass _ v) fun _ w _ => h.ret _ w
    · exact h.ret _ v
  · refine h.seq (h.pass _ m) fun _ t ht => h.busReadAnswer .fetch pc .word ?_
    cases ht
    exact ha

theorem obtain {pc : UInt32} (hpc : AdmitsFetch allowed pc) : P _ (Machine.obtain pc) m :=
  h.seq (h.checkExecutionBreakpoint pc) fun _ _ _ => h.fetch hpc

end ClosedBeside

namespace ClosedAt
variable {allowed : Bool → UInt32 → Prop} {P : (α : Type) → Exec γ δ α → Machine γ δ → Prop}
  (h : ClosedAt allowed P)
include h

theorem performUnit (o : Operands) (pc : UInt32) {i : Instruction} (hi : i.usesUnit) :
    P _ (Machine.perform o pc i) m := by
  match i, hi with
  | .register (.muldiv op) f, _ => exact h.seq (h.issue _ _ _ m) fun _ t _ => h.ret _ t
  | .register .mfhi f, _ | .register .mflo f, _ =>
    exact h.seq (h.resolve m) fun stall t _ => h.seq (h.pass _ t) fun _ u _ =>
      h.look (fun _ _ => rfl) (h.ret _ u)
  | .register .mthi f, _ =>
    exact h.seq (h.resolve m) fun _ t _ => h.seq (h.writeHi _ t) fun _ u _ => h.ret _ u
  | .register .mtlo f, _ =>
    exact h.seq (h.resolve m) fun _ t _ => h.seq (h.writeLo _ t) fun _ u _ => h.ret _ u

theorem perform {o : Operands} {i : Instruction} (ha : ∀ v ∈ i.accesses o, Admits allowed v)
    (pc : UInt32) (hc : ∀ f, i = .register (.cop .system) f → P _ (performCop0 o pc f) m) :
    P _ (Machine.perform o pc i) m :=
  h.beside.perform ha pc (h.performUnit o pc) hc

end ClosedAt
end Machine
end R3000
