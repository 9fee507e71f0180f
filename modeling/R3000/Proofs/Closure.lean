import R3000.Machine.Step
import R3000.Proofs.Alignment
import R3000.Proofs.Motion

/-! # What instructions are made of

A property of computations that is kept by sequencing and that the operations below have is one of
every instruction, whatever its word. Aligned accesses are all that instructions ask of the bus. -/
namespace R3000

namespace Reported.Quiet

theorem busFault (access : Access) (vaddr : UInt32) (e : BusError) :
    (Machine.busFault access vaddr e).Quiet := by
  cases e <;> exact ⟨rfl, rfl⟩

theorem setBiu (c : Caches) (value : UInt32) : (c.setBiu value).Quiet := by
  simp only [Caches.setBiu]
  split <;> exact ⟨rfl, rfl⟩

theorem invalidateLine (c : ICache) (addr : UInt32) : (c.invalidateLine addr).Quiet := ⟨rfl, rfl⟩

theorem writeCop0 (c : Cop0) (index : Nat) (value : UInt32) : (c.write index value).Quiet := by
  simp only [Cop0.write]
  split <;> exact ⟨rfl, rfl⟩

theorem resolveMulDiv (u : MulDivUnit) (f : RegisterFile) (retired : UInt64) :
    (u.resolve f retired).Quiet := by
  rw [MulDivUnit.resolve_eq]
  split
  · exact pure _
  · dsimp only
    split <;> exact ⟨rfl, rfl⟩

end Reported.Quiet

namespace Machine
variable {γ δ α β : Type}

def Gives (x : Exec γ δ α) (a : α) : Prop := ∃ m t, (x m).value = (.ok a, t)

def Timed : Instruction → Prop
  | .register op f => op = .mfhi ∨ op = .mflo ∨ op = .cop .geometry ∧ isCommand f
  | _ => False

def withConfig (m : Machine γ δ) (k : Config) : Machine γ δ := { m with config := k }

structure Closed (P : (α : Type) → Exec γ δ α → Prop) : Prop where
  ret : ∀ {α : Type} (a : α), P α (pure a)
  seq : ∀ {α β : Type} {x : Exec γ δ α} {f : α → Exec γ δ β}, P α x →
    (∀ a, Gives x a → P β (f a)) → P β (x >>= f)
  fail : ∀ {α : Type} (e : Exception), P α (throw e)
  look : ∀ {β : Type} {f : Machine γ δ → Exec γ δ β}, (∀ m k, f (m.withConfig k) = f m) →
    (∀ m, P β (f m)) → P β (get >>= f)
  report : ∀ {α : Type} {x : Reported α}, x.Quiet → P α (liftM x)
  writeGpr : ∀ r v, P _ (modifyRegs (·.setGpr r v))
  writeHi : ∀ v, P _ (modifyRegs ({ · with hi := v }))
  writeLo : ∀ v, P _ (modifyRegs ({ · with lo := v }))
  writeCop0 : ∀ f, P _ (modifyCop0 f)
  cancel : ∀ r, P _ (modifySlots (·.cancel (loadReg r)))
  schedule : ∀ r v, P _ (modifySlots (·.schedule (loadReg r) v))
  setBranch : ∀ taken target, P _ (modifySlots (·.setBranch taken target))
  writeCaches : ∀ f, P _ (modifyCaches f)
  issue : ∀ op a b, P _ (issueMulDiv op a b)
  resolve : P _ resolveMulDiv
  await : P _ (plain awaitGte)
  writeGte : ∀ f : Machine γ δ → γ, (∀ m k, f (m.withConfig k) = f m) →
    P _ (modify fun m => { m with gteState := f m })
  busRead : ∀ addr w, w.aligned addr → P _ (plain (onBus (Bus.read addr w)))
  busWrite : ∀ addr value w, w.aligned addr → P _ (plain (onBus (Bus.write addr value w)))
  fetchLine : ∀ (c : ICache) addr, P _ (plain (onBus (c.fetch addr fun a => Bus.read a .word)))

theorem aligned_of_checkAccess {access : Access} {vaddr : UInt32} {w : Width}
    (h : Gives (γ := γ) (δ := δ) (checkAccess access vaddr w) ()) : w.aligned vaddr := by
  obtain ⟨m, t, h⟩ := h
  cases hw : w.aligned vaddr with
  | true => rfl
  | false =>
    simp only [checkAccess] at h
    rw [hw] at h
    cases h

/-- What passes the first check of a fetch is aligned. -/
theorem aligned_of_fetchable {pc : UInt32} {privileged : Bool}
    (h : ¬(!Width.word.aligned pc || privileged) = true) : Width.word.aligned pc := by
  cases hw : Width.word.aligned pc with
  | true => rfl
  | false => exact absurd (by rw [hw]; rfl) h

namespace Closed
variable {P : (α : Type) → Exec γ δ α → Prop} (h : Closed P)
include h

theorem note_seq {n : Notice} {f : Unit → Exec γ δ β} (hf : P β (f ())) :
    P β (liftM (note n) >>= f) :=
  h.seq (h.report (.note n)) fun _ _ => hf

/-- A check that may raise an exception goes before the rest. -/
theorem check {c : Prop} [Decidable c] {n : Notice} {e : Exception} {x : Exec γ δ β}
    (hx : ¬c → P β x) :
    P β (if c then do note n; let y ← throw e; (fun _ : PUnit => x) y else x) := by
  split
  · refine h.note_seq (h.seq (h.fail e) ?_)
    rintro _ ⟨m, t, ⟨⟩⟩
  · exact hx ‹_›

/-- A check that may raise an exception ends a computation. -/
theorem check_last {c : Prop} [Decidable c] {n : Notice} {e : Exception} :
    P Unit (if c then do note n; throw e else pure ()) := by
  split
  · exact h.note_seq (h.fail e)
  · exact h.ret ()

theorem answer (access : Access) (vaddr : UInt32) (r : Except BusError α) :
    P α (Machine.answer access vaddr r) := by
  cases r with
  | ok a => exact h.ret a
  | error e => exact h.seq (h.report (.busFault access vaddr e)) fun e _ => h.fail e

theorem busReadAnswer (access : Access) (vaddr : UInt32) {addr : UInt32} {w : Width}
    (ha : w.aligned addr) : P _ (Machine.busRead access vaddr addr w) :=
  h.seq (h.busRead addr w ha) fun r _ => h.answer access vaddr r

theorem checkDataBreakpoint (access : Access) (vaddr : UInt32) :
    P _ (Machine.checkDataBreakpoint access vaddr) := by
  refine h.look (fun _ _ => rfl) fun m => ?_
  dsimp only
  split
  · refine h.seq (h.writeCop0 _) fun _ _ => h.note_seq ?_
    split
    · exact h.fail _
    · exact h.ret _
  · exact h.ret _

theorem checkAccess (access : Access) (vaddr : UInt32) (w : Width) :
    P _ (Machine.checkAccess access vaddr w) :=
  h.check fun _ => h.look (fun _ _ => rfl) fun _ => h.check_last

theorem cachedLoad (vaddr : UInt32) {addr : UInt32} {w : Width} (ha : w.aligned addr) :
    P _ (Machine.cachedLoad vaddr addr w) := by
  refine h.look (fun _ _ => rfl) fun m => ?_
  dsimp only
  split
  · exact h.note_seq (h.ret _)
  · refine h.seq (h.busReadAnswer .load vaddr ha) fun value _ => ?_
    split
    · exact h.seq (h.writeCaches _) fun _ _ => h.ret _
    · exact h.ret _

theorem load (vaddr : UInt32) (w : Width) : P _ (Machine.load vaddr w) := by
  refine h.seq (h.checkDataBreakpoint .load vaddr) fun _ _ =>
    h.seq (h.checkAccess .load vaddr w) fun _ hal => h.look (fun _ _ => rfl) fun m => ?_
  have ha := translate_aligned (aligned_of_checkAccess hal)
  dsimp only
  split
  · split
    · exact h.ret _
    · exact h.note_seq (h.fail _)
  split
  · exact h.ret _
  split
  · exact h.ret _
  split
  · exact h.cachedLoad vaddr ha
  · exact h.busReadAnswer .load vaddr ha

theorem isolatedStore (addr value : UInt32) (w : Width) :
    P _ (Machine.isolatedStore addr value w) := by
  refine h.look (fun _ _ => rfl) fun m => ?_
  dsimp only
  split
  · split
    · exact h.seq (h.report (.invalidateLine _ addr)) fun _ _ => h.writeCaches _
    · exact h.writeCaches _
  split
  · exact h.writeCaches _
  · exact h.report (.note _)

theorem write {vaddr : UInt32} (value : UInt32) {w : Width} (hv : w.aligned vaddr) :
    P _ (Machine.write vaddr value w) := by
  have ha := translate_aligned hv
  have hbus := h.seq (h.busWrite (translate vaddr) value w ha) fun r _ =>
    h.answer .store vaddr r
  refine h.look (fun _ _ => rfl) fun m => ?_
  dsimp only
  split
  · split
    · exact h.seq (h.report (.setBiu _ _)) fun _ _ => h.writeCaches _
    · exact h.note_seq (h.fail _)
  split
  · exact h.isolatedStore _ _ _
  split
  · exact h.writeCaches _
  split
  · exact h.seq (h.writeCaches _) fun _ _ => hbus
  · exact hbus

theorem store (vaddr value : UInt32) (w : Width) : P _ (Machine.store vaddr value w) :=
  h.seq (h.checkDataBreakpoint .store vaddr) fun _ _ =>
    h.seq (h.checkAccess .store vaddr w) fun _ hal => h.write value (aligned_of_checkAccess hal)

theorem writePieces {base : UInt32} (value : UInt32) :
    ∀ pieces : List (UInt32 × Width), (∀ p ∈ pieces, p.2.aligned (base + p.1)) →
      P PUnit (pieces.forM fun p => Machine.write (base + p.1) (value >>> (8 * p.1)) p.2)
  | [], _ => h.ret _
  | p :: pieces, hp =>
    h.seq (h.write _ (hp p List.mem_cons_self)) fun _ _ =>
      writePieces value pieces fun q hq => hp q (List.mem_cons_of_mem p hq)

theorem storePieces (vaddr value : UInt32) {l : Fin 4} {pieces : List (UInt32 × Width)}
    (hp : ∀ p ∈ pieces, p ∈ Lane.upTo l ++ Lane.onward l) :
    P _ (Machine.storePieces vaddr value pieces) :=
  h.seq (h.checkDataBreakpoint .store vaddr) fun _ _ =>
    h.seq (h.checkAccess .store _ .word) fun _ _ => h.writePieces value pieces fun p hm =>
      Width.aligned_add_piece (Width.word_aligned_base vaddr) (hp p hm)

theorem gpr (r : Reg) : P _ (Machine.gpr r) := h.look (fun _ _ => rfl) fun _ => h.ret _

theorem setGpr (r : Reg) (value : UInt32) : P _ (Machine.setGpr r value) :=
  h.seq (h.cancel r) fun _ _ => h.writeGpr r value

theorem setResult (r : Reg) (value : Option UInt32) : P _ (Machine.setResult r value) := by
  cases value with
  | some v => exact h.setGpr r v
  | none => exact h.fail _

theorem scheduleLoad (r : Reg) (value : UInt32) : P _ (Machine.scheduleLoad r value) :=
  h.note_seq (h.schedule r value)

theorem branch (taken : Bool) (target : UInt32) : P _ (Machine.branch taken target) := by
  unfold Machine.branch
  dsimp only
  split
  · exact h.note_seq (h.setBranch _ _)
  · exact h.setBranch _ _

theorem effectiveAddress (rs : Reg) (imm : UInt16) : P _ (Machine.effectiveAddress rs imm) :=
  h.seq (h.gpr rs) fun _ _ => h.note_seq (h.ret _)

theorem requireCop (z : Cop) : P _ (Machine.requireCop z) := h.look (fun _ _ => rfl) fun _ => h.check_last

theorem commandCop0 (f : Register) (pc : UInt32) : P _ (Machine.commandCop0 f pc) := by
  simp only [Machine.commandCop0]
  split
  iterate 4 exact h.report (.note _)
  · exact h.note_seq (h.writeCop0 _)
  · exact h.report (.note _)

theorem executeCop0 (f : Register) (pc : UInt32) : P _ (Machine.executeCop0 f pc) := by
  refine h.seq (h.requireCop _) fun _ _ => ?_
  split
  · exact h.commandCop0 f pc
  split
  · refine h.look (fun _ _ => rfl) fun m => ?_
    split
    · exact h.scheduleLoad _ _
    · exact h.report (.note _)
  · exact h.look (fun _ _ => rfl) fun m => h.seq (h.gpr _) fun v _ =>
      h.seq (h.report (.writeCop0 _ _ _)) fun _ _ => h.writeCop0 _
  · exact h.report (.note _)
  · exact h.report (.note _)
  · exact h.branch _ _
  · exact h.report (.note _)

/-- Only commands take time of their own. -/
theorem executeCop2 (f : Register) (pc : UInt32) (hf : isCommand f → P _ (Machine.commandGte f)) :
    P _ (Machine.executeCop2 f pc) := by
  refine h.seq (h.requireCop _) fun _ _ => ?_
  split
  · exact hf ‹_›
  split
  · exact h.seq h.await fun _ _ => h.look (fun _ _ => rfl) fun m => h.scheduleLoad _ _
  · exact h.seq h.await fun _ _ => h.look (fun _ _ => rfl) fun m => h.scheduleLoad _ _
  · exact h.seq (h.gpr _) fun v _ => h.writeGte _ fun _ _ => rfl
  · exact h.seq (h.gpr _) fun v _ => h.writeGte _ fun _ _ => rfl
  · exact h.branch _ _
  · exact h.report (.note _)

theorem loadCop (z : Cop) (f : Immediate) : P _ (Machine.loadCop z f) := by
  refine h.seq (h.requireCop z) fun _ _ => h.seq (h.effectiveAddress _ _) fun vaddr _ => ?_
  split
  · exact h.seq (h.load vaddr .word) fun v _ => h.writeGte _ fun _ _ => rfl
  · exact h.report (.note _)

theorem storeCop (z : Cop) (f : Immediate) : P _ (Machine.storeCop z f) := by
  refine h.seq (h.requireCop z) fun _ _ => h.seq (h.effectiveAddress _ _) fun vaddr _ => ?_
  split
  · exact h.seq h.await fun _ _ => h.look (fun _ _ => rfl) fun m => h.store _ _ _
  · exact h.report (.note _)

theorem pendingGpr (r : Reg) : P _ (Machine.pendingGpr r) := h.look (fun _ _ => rfl) fun _ => h.ret _

theorem executeBranch (op : Branch) (f : Immediate) (pc : UInt32) :
    P _ (Machine.executeBranch op f pc) := by
  refine h.seq (h.gpr _) fun s _ => h.seq (h.gpr _) fun t _ => ?_
  dsimp only
  split
  · exact h.seq (h.setGpr _ _) fun _ _ => h.branch _ _
  · exact h.branch _ _

theorem loaded (op : Load) (rt : Reg) (vaddr : UInt32) : P _ (Machine.loaded op rt vaddr) := by
  cases op with
  | lb | lh => exact h.seq (h.load _ _) fun _ _ => h.ret _
  | lbu | lhu | lw => exact h.load _ _
  | lwl | lwr => exact h.seq (h.load _ _) fun _ _ => h.seq (h.pendingGpr rt) fun _ _ => h.ret _

theorem executeStore (op : Store) (vaddr value : UInt32) :
    P _ (Machine.executeStore op vaddr value) := by
  cases op with
  | sb | sh | sw => exact h.store _ _ _
  | swl =>
    rw [executeStore_swl]
    exact h.storePieces _ _ fun _ hp => List.mem_append_left _ hp
  | swr =>
    rw [executeStore_swr]
    exact h.storePieces _ _ fun _ hp => List.mem_append_right _ hp

theorem executeImmediate (op : ImmediateOp) (f : Immediate) (pc : UInt32) :
    P _ (Machine.executeImmediate op f pc) := by
  cases op with
  | alu op => exact h.seq (h.gpr _) fun s _ => h.setResult _ _
  | branch op => exact h.executeBranch op f pc
  | load op =>
    exact h.seq (h.effectiveAddress _ _) fun vaddr _ =>
      h.seq (h.loaded op f.rt vaddr) fun v _ => h.scheduleLoad _ _
  | store op =>
    exact h.seq (h.effectiveAddress _ _) fun vaddr _ =>
      h.seq (h.gpr _) fun v _ => h.executeStore op vaddr v
  | lwc z => exact h.loadCop z f
  | swc z => exact h.storeCop z f

theorem executeJump (op : JumpOp) (f : Jump) (pc : UInt32) : P _ (Machine.executeJump op f pc) := by
  cases op with
  | j => exact h.branch true (jumpTarget pc f.target)
  | jal =>
    exact h.seq (h.gpr _) fun sp _ => h.note_seq
      (h.seq (h.setGpr _ _) fun _ _ => h.branch _ _)

/-- Besides commands to the geometry engine, the reads of HI and LO take time of their own. -/
theorem executeRegister (op : RegisterOp) (f : Register) (pc : UInt32)
    (hs : op = .mfhi ∨ op = .mflo → ∀ cycles, P _ (plain (spend cycles)))
    (hf : op = .cop .geometry → isCommand f → P _ (Machine.commandGte f)) :
    P _ (Machine.executeRegister op f pc) := by
  cases op with
  | alu op => exact h.seq (h.gpr _) fun s _ => h.seq (h.gpr _) fun t _ => h.setResult _ _
  | shift op => exact h.seq (h.gpr _) fun t _ => h.setGpr _ _
  | shiftBy op => exact h.seq (h.gpr _) fun t _ => h.seq (h.gpr _) fun s _ => h.setGpr _ _
  | muldiv op => exact h.seq (h.gpr _) fun s _ => h.seq (h.gpr _) fun t _ => h.issue _ _ _
  | jr => exact h.seq (h.gpr _) fun s _ => h.branch _ _
  | jalr =>
    exact h.seq (h.gpr _) fun target _ => h.seq (h.gpr _) fun sp _ => h.note_seq
      (h.seq (h.setGpr _ _) fun _ _ => h.branch _ _)
  | syscall => exact h.seq (h.gpr _) fun a _ => h.note_seq (h.fail _)
  | brk => exact h.note_seq (h.fail _)
  | mfhi =>
    exact h.seq h.resolve fun stall _ => h.seq (hs (.inl rfl) _) fun _ _ =>
      h.look (fun _ _ => rfl) fun m => h.setGpr _ _
  | mflo =>
    exact h.seq h.resolve fun stall _ => h.seq (hs (.inr rfl) _) fun _ _ =>
      h.look (fun _ _ => rfl) fun m => h.setGpr _ _
  | mthi => exact h.seq h.resolve fun _ _ => h.seq (h.gpr _) fun v _ => h.writeHi v
  | mtlo => exact h.seq h.resolve fun _ _ => h.seq (h.gpr _) fun v _ => h.writeLo v
  | cop z =>
    match z with
    | 0 => exact h.executeCop0 f pc
    | 2 => exact h.executeCop2 f pc (hf rfl)
    | 1 | 3 => exact h.requireCop _

theorem execute (i : Instruction) (pc : UInt32)
    (hs : Timed i → ∀ cycles, P _ (plain (spend cycles)))
    (hf : ∀ f, i = .register (.cop .geometry) f → isCommand f → P _ (Machine.commandGte f)) :
    P _ (Machine.execute i pc) := by
  cases i with
  | immediate op f => exact h.executeImmediate op f pc
  | jump op f => exact h.executeJump op f pc
  | register op f =>
    refine h.executeRegister op f pc (fun ho => hs ?_) fun ho => ?_
    · exact ho.elim .inl fun ho => .inr (.inl ho)
    · subst ho
      exact hf f rfl

theorem checkExecutionBreakpoint (pc : UInt32) : P _ (Machine.checkExecutionBreakpoint pc) := by
  refine h.look (fun _ _ => rfl) fun m => ?_
  dsimp only
  split
  · refine h.seq (h.writeCop0 _) fun _ _ => h.note_seq ?_
    split
    · exact h.fail _
    · exact h.ret _
  · exact h.ret _

/-- A fetch takes time, where it passes by the instruction cache or fills it. -/
theorem fetch (pc : UInt32) (hs : P _ (plain (spend uncachedFetchCost)))
    (hr : P _ (plain (spend refillCost))) : P _ (Machine.fetch pc) := by
  refine h.look (fun _ _ => rfl) fun m => h.check fun hc => ?_
  have hpc := aligned_of_fetchable hc
  dsimp only
  split
  · refine h.seq (h.fetchLine _ _) fun r _ => h.seq (h.writeCaches _) fun _ _ =>
      h.seq (h.answer .fetch pc r.1) fun f _ => ?_
    split
    · exact h.seq hr fun _ _ => h.ret _
    · exact h.ret _
  · exact h.seq hs fun _ _ => h.busReadAnswer .fetch pc (translate_aligned hpc)

theorem obtain (pc : UInt32) (hs : P _ (plain (spend uncachedFetchCost)))
    (hr : P _ (plain (spend refillCost))) : P _ (Machine.obtain pc) :=
  h.seq (h.checkExecutionBreakpoint pc) fun _ _ => h.fetch pc hs hr

theorem executeWord (word pc : UInt32)
    (hs : ∀ i, Instruction.decode word = some i → Timed i → ∀ cycles, P _ (plain (spend cycles)))
    (hf : ∀ f, Instruction.decode word = some (.register (.cop .geometry) f) → isCommand f →
      P _ (Machine.commandGte f)) :
    P _ (Machine.executeWord word pc) := by
  simp only [Machine.executeWord]
  split
  · exact h.note_seq (h.execute _ pc (hs _ ‹_›) fun f hi => hf f (by rw [← hi]; assumption))
  · exact h.report (.note _)

end Closed
end Machine
end R3000
