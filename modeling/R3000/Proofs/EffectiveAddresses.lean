import R3000.Proofs.Execution

/-! # The addresses that loads and stores report

An access to memory compares an address with the data breakpoint, and does nothing else to the system
control registers before it faults or is done. The address is the effective address, and so is the one
that a fault reports; but a load of part of a word goes by the address of the word, and a store of part of
one reports that or a piece of it. -/
namespace R3000

/-- The virtual addresses that a store may report. Of a store of part of a word the address of the word is
checked first. -/
def Store.reported (op : Store) (vaddr : UInt32) : List UInt32 :=
  match op with
  | .sb | .sh | .sw => [vaddr]
  | .swl | .swr => Lane.base vaddr :: op.accesses vaddr

namespace Instruction

/-- What an instruction accesses memory for, and its effective address, if it accesses any. -/
def effective? (i : Instruction) (o : Operands) : Option (Access × UInt32) :=
  match i with
  | .immediate (.load _) f => some (.load, o.address f)
  | .immediate (.store _) f => some (.store, o.address f)
  | .immediate (.lwc z) f => if z = .geometry then some (.load, o.address f) else none
  | .immediate (.swc z) f => if z = .geometry then some (.store, o.address f) else none
  | _ => none

def usable (i : Instruction) (s : Status) : Bool :=
  match i with
  | .immediate (.lwc z) _ | .immediate (.swc z) _ => s.usable z
  | _ => true

/-- The address that an instruction with this effective address compares with the data breakpoint. -/
def compared (i : Instruction) (vaddr : UInt32) : UInt32 :=
  match i with
  | .immediate (.load op) _ => op.access vaddr
  | _ => vaddr

/-- The addresses that one with this effective address may report. -/
def reported (i : Instruction) (vaddr : UInt32) : List UInt32 :=
  match i with
  | .immediate (.load op) _ => [op.access vaddr]
  | .immediate (.store op) _ => op.reported vaddr
  | _ => [vaddr]

end Instruction

/-- No fault of an access is a hit of a breakpoint. -/
theorem Access.ne_debug (access : Access) :
    access.busException ≠ .debug ∧ ∀ vaddr, access.addressError vaddr ≠ .debug := by
  cases access <;> exact ⟨nofun, nofun⟩

namespace Machine
variable {γ δ α β : Type} {m t u : Machine γ δ} {access : Access} {ok : UInt32 → Prop}

/-- The computation leaves the system control registers alone, and raises bus errors and address errors at
such addresses only. -/
structure Answers (access : Access) (ok : UInt32 → Prop) (x : Exec γ δ α) (m : Machine γ δ) : Prop where
  cop0 : (x m).value.2.cpu.regs.cop0 = m.cpu.regs.cop0
  raises : ∀ e t, (x m).value = (.error e, t) →
    e = access.busException ∨ ∃ v, ok v ∧ e = access.addressError v

namespace Answers
variable {vaddr : UInt32}

theorem of_ok {x : Exec γ δ α} {a : α} (h : (x m).value = (.ok a, t))
    (hc : t.cpu.regs.cop0 = m.cpu.regs.cop0) : Answers access ok x m := by
  refine ⟨by rw [h]; exact hc, fun e u he => ?_⟩
  rw [h] at he
  cases he

theorem pure (a : α) : Answers access ok (Pure.pure a) m := .of_ok rfl rfl

theorem seq {x : Exec γ δ α} {f : α → Exec γ δ β} (hx : Answers access ok x m)
    (hf : ∀ a t, (x m).value = (.ok a, t) → Answers access ok (f a) t) :
    Answers access ok (x >>= f) m := by
  refine ⟨?_, fun e u he => ?_⟩
  · have hcop0 := hx.cop0
    cases hv : (x m).value with
    | mk r t =>
      rw [hv] at hcop0
      cases r with
      | error e =>
        rw [exec_bind_error hv]
        exact hcop0
      | ok a =>
        rw [exec_bind_ok hv]
        exact (hf a t hv).cop0.trans hcop0
  · obtain he | ⟨a, t, hv, he⟩ := exec_bind_error_inv he
    · exact hx.raises e u he
    · exact (hf a t hv).raises e u he

theorem get_seq {f : Machine γ δ → Exec γ δ β} (hf : Answers access ok (f m) m) :
    Answers access ok (get >>= f) m :=
  seq (.of_ok rfl rfl) fun a t h => by cases h; exact hf

theorem report_seq {x : Reported α} {f : α → Exec γ δ β} (hf : Answers access ok (f x.value) m) :
    Answers access ok (liftM x >>= f) m :=
  seq (.of_ok rfl rfl) fun a t h => by cases h; exact hf

theorem throw (h : ok vaddr) : Answers access ok (throw (access.addressError vaddr) : Exec γ δ α) m :=
  ⟨rfl, fun e t he => .inr ⟨vaddr, h, by cases he; rfl⟩⟩

theorem modifyCaches (f : Caches → Caches) : Answers access ok (modifyCaches f) m := .of_ok rfl rfl

theorem checkAccess (h : ok vaddr) (w : Width) : Answers access ok (checkAccess access vaddr w) m := by
  simp only [Machine.checkAccess]
  split
  · exact report_seq (seq (throw h) fun _ _ ht => by cases ht)
  · refine get_seq ?_
    split
    · exact report_seq (throw h)
    · exact pure _

theorem answer (h : ok vaddr) (r : Except BusError α) : Answers access ok (answer access vaddr r) m := by
  cases r with
  | ok a => exact pure a
  | error e =>
    refine report_seq ?_
    cases e with
    | unmapped addr => exact throw h
    | bus addr => exact ⟨rfl, fun e t he => .inl (by cases he; rfl)⟩

theorem onBus (h : ok vaddr) (x : Bus.Op δ (Except BusError α)) :
    Answers access ok (do Machine.answer access vaddr (← plain (onBus x)) : Exec γ δ α) m :=
  seq (.of_ok rfl rfl) fun r _ _ => answer h r

theorem cachedLoad (h : ok vaddr) (addr : UInt32) (w : Width) :
    Answers .load ok (cachedLoad vaddr addr w) m := by
  refine get_seq ?_
  split
  · exact report_seq (pure _)
  · refine seq (onBus h _) fun _ _ _ => ?_
    split
    · exact seq (modifyCaches _) fun _ _ _ => pure _
    · exact pure _

theorem isolatedStore (addr value : UInt32) (w : Width) :
    Answers access ok (isolatedStore addr value w) m := by
  refine get_seq ?_
  dsimp only
  split
  · split
    · exact report_seq (modifyCaches _)
    · exact modifyCaches _
  split
  · exact modifyCaches _
  · exact .of_ok rfl rfl

theorem write (h : ok vaddr) (value : UInt32) (w : Width) : Answers .store ok (write vaddr value w) m := by
  refine get_seq ?_
  dsimp only
  split
  · split
    · exact report_seq (modifyCaches _)
    · exact report_seq (throw h)
  split
  · exact isolatedStore _ _ _
  split
  · exact modifyCaches _
  split
  · exact seq (modifyCaches _) fun _ _ _ => onBus h _
  · exact onBus h _

theorem writePieces {base : UInt32} {pieces : List (UInt32 × Width)} (h : ∀ p ∈ pieces, ok (base + p.1))
    (value : UInt32) : Answers .store ok
      (pieces.forM fun p => Machine.write (base + p.1) (value >>> (8 * p.1)) p.2 : Exec γ δ PUnit) m := by
  induction pieces generalizing m with
  | nil => exact pure _
  | cons p pieces ih =>
    exact seq (write (h p List.mem_cons_self) _ _) fun _ _ _ => ih fun q hq => h q (List.mem_cons_of_mem p hq)

end Answers

/-- The computation compares an address with the data breakpoint, once; and whatever else it raises are bus
errors and address errors at such addresses. -/
structure Reports (access : Access) (compared : UInt32) (ok : UInt32 → Prop) (x : Exec γ δ α)
    (m : Machine γ δ) : Prop where
  cop0 : (x m).value.2.cpu.regs.cop0 = if m.cpu.regs.cop0.catches access compared then
    m.cpu.regs.cop0.record (Cop0.dataHit access) else m.cpu.regs.cop0
  trap : (x m).value.1 = .error .debug ↔
    m.cpu.regs.cop0.catches access compared ∧ m.cpu.regs.cop0.dcic.tr
  raises : ∀ e t, (x m).value = (.error e, t) →
    e = .debug ∨ e = access.busException ∨ ∃ v, ok v ∧ e = access.addressError v

def recorded (access : Access) (m : Machine γ δ) : Machine γ δ :=
  { m with cpu := { m.cpu with regs :=
    { m.cpu.regs with cop0 := m.cpu.regs.cop0.record (Cop0.dataHit access) } } }

theorem checkDataBreakpoint_value (access : Access) (vaddr : UInt32) (m : Machine γ δ) :
    (checkDataBreakpoint access vaddr m).value = if m.cpu.regs.cop0.catches access vaddr then
      (if m.cpu.regs.cop0.dcic.tr then .error .debug else .ok (), m.recorded access) else (.ok (), m) := by
  show ((if m.cpu.regs.cop0.catches access vaddr then _ else _ : Exec γ δ Unit) m).value = _
  cases m.cpu.regs.cop0.catches access vaddr with
  | false => rfl
  | true =>
    show ((if m.cpu.regs.cop0.dcic.tr then _ else _ : Exec γ δ Unit) (m.recorded access)).value = _
    cases m.cpu.regs.cop0.dcic.tr <;> rfl

namespace Reports
variable {compared : UInt32}

theorem checkDataBreakpoint : Reports access compared ok (checkDataBreakpoint access compared) m := by
  have hvalue := checkDataBreakpoint_value access compared m
  refine ⟨?_, ?_, fun e t he => .inl ?_⟩
  · rw [hvalue]
    split <;> rfl
  · rw [hvalue]
    split
    · rename_i hcatches
      split
      · exact ⟨fun _ => ⟨hcatches, ‹_›⟩, fun _ => rfl⟩
      · exact ⟨nofun, fun h => absurd h.2 ‹_›⟩
    · exact ⟨nofun, fun h => absurd h.1 ‹_›⟩
  · rw [hvalue] at he
    split at he
    · split at he
      · cases he
        rfl
      · cases he
    · cases he

/-- What follows the comparison can only answer. -/
theorem bind {x : Exec γ δ α} {f : α → Exec γ δ β} (hx : Reports access compared ok x m)
    (hf : ∀ a t, (x m).value = (.ok a, t) → Answers access ok (f a) t) :
    Reports access compared ok (x >>= f) m := by
  cases hv : (x m).value with
  | mk r t =>
    have hcop0 := hx.cop0
    have htrap := hx.trap
    rw [hv] at hcop0 htrap
    cases r with
    | error e =>
      refine ⟨?_, ?_, fun e' u he => ?_⟩
      · rw [exec_bind_error hv]
        exact hcop0
      · rw [exec_bind_error hv, ← htrap]
        exact ⟨fun h => by cases h; rfl, fun h => by cases h; rfl⟩
      · rw [exec_bind_error hv] at he
        cases he
        exact hx.raises e t hv
    | ok a =>
      have hanswers := hf a t hv
      have hsilent : (f a t).value.1 ≠ .error .debug := by
        intro he
        obtain hbus | ⟨v, -, hv⟩ := hanswers.raises .debug (f a t).value.2 (Prod.ext he rfl)
        · exact access.ne_debug.1 hbus.symm
        · exact access.ne_debug.2 v hv.symm
      refine ⟨?_, ?_, fun e u he => ?_⟩
      · rw [exec_bind_ok hv]
        exact hanswers.cop0.trans hcop0
      · rw [exec_bind_ok hv, ← htrap]
        exact ⟨fun h => absurd h hsilent, nofun⟩
      · rw [exec_bind_ok hv] at he
        exact .inr (hanswers.raises e u he)

/-- What comes before it leaves the system control registers alone. -/
theorem after {x : Exec γ δ α} {f : α → Exec γ δ β} {a : α} (hv : (x m).value = (.ok a, t))
    (hc : t.cpu.regs.cop0 = m.cpu.regs.cop0) (hf : Reports access compared ok (f a) t) :
    Reports access compared ok (x >>= f) m := by
  refine ⟨?_, ?_, fun e u he => ?_⟩
  · rw [exec_bind_ok hv, ← hc]
    exact hf.cop0
  · rw [exec_bind_ok hv, ← hc]
    exact hf.trap
  · rw [exec_bind_ok hv] at he
    exact hf.raises e u he

theorem load {vaddr : UInt32} (h : ok vaddr) (w : Width) :
    Reports .load vaddr ok (Machine.load vaddr w) m := by
  refine checkDataBreakpoint.bind fun _ _ _ => .seq (.checkAccess h w) fun _ t _ => .get_seq ?_
  dsimp only
  split
  · split
    · exact .pure _
    · exact .report_seq (.throw h)
  split
  · exact .pure _
  split
  · exact .pure _
  split
  · exact .cachedLoad h _ w
  · exact .onBus h _

theorem store {vaddr : UInt32} (h : ok vaddr) (value : UInt32) (w : Width) :
    Reports .store vaddr ok (Machine.store vaddr value w) m :=
  checkDataBreakpoint.bind fun _ _ _ => .seq (.checkAccess h w) fun _ _ _ => .write h value w

theorem storePieces {vaddr : UInt32} {pieces : List (UInt32 × Width)} (h : ok (Lane.base vaddr))
    (hp : ∀ p ∈ pieces, ok (Lane.base vaddr + p.1)) (value : UInt32) :
    Reports .store vaddr ok (Machine.storePieces vaddr value pieces) m :=
  checkDataBreakpoint.bind fun _ _ _ => .seq (.checkAccess h .word) fun _ _ _ => .writePieces hp value

theorem brought (op : Load) (current vaddr : UInt32) :
    Reports .load (op.access vaddr) (· ∈ [op.access vaddr]) (Machine.brought op current vaddr) m := by
  cases op with
  | lbu | lhu | lw =>
    refine load ?_ _
    exact List.mem_singleton.mpr rfl
  | lb | lh | lwl | lwr =>
    refine (load ?_ _).bind fun _ _ _ => .pure _
    exact List.mem_singleton.mpr rfl

theorem executeStore (op : Store) (vaddr value : UInt32) :
    Reports .store vaddr (· ∈ op.reported vaddr) (Machine.executeStore op vaddr value) m := by
  have hpiece : ∀ {pieces : List (UInt32 × Width)}, ∀ p ∈ pieces, Lane.base vaddr + p.1 ∈
      Lane.base vaddr :: pieces.map fun p => Lane.base vaddr + p.1 := fun p hp =>
    List.mem_cons_of_mem _ (List.mem_map_of_mem hp)
  cases op with
  | sb | sh | sw => exact store (List.mem_singleton.mpr rfl) _ _
  | swl =>
    rw [executeStore_swl]
    exact storePieces List.mem_cons_self hpiece _
  | swr =>
    rw [executeStore_swr]
    exact storePieces List.mem_cons_self hpiece _

end Reports

theorem awaitGte_regs (m : Machine γ δ) : (awaitGte m).value.2.cpu.regs = m.cpu.regs := by
  show ((if m.cpu.clock.cycles < m.cpu.clock.gteReadyAt then _ else _ : Run γ δ Unit) m).value.2.cpu.regs = _
  split <;> rfl

theorem awaitGte_engine (m : Machine γ δ) :
    (awaitGte m).value.2.gte = m.gte ∧ (awaitGte m).value.2.gteState = m.gteState := by
  show ((if m.cpu.clock.cycles < m.cpu.clock.gteReadyAt then _ else _ : Run γ δ Unit) m).value.2.gte = _ ∧
    ((if m.cpu.clock.cycles < m.cpu.clock.gteReadyAt then _ else _ : Run γ δ Unit) m).value.2.gteState = _
  split <;> exact ⟨rfl, rfl⟩

/-- An instruction that accesses memory compares one address with the data breakpoint. -/
theorem perform_reports {i : Instruction} {o : Operands} {vaddr : UInt32}
    (he : i.effective? o = some (access, vaddr)) (hu : i.usable m.cpu.regs.cop0.status) (pc : UInt32) :
    Reports access (i.compared vaddr) (· ∈ i.reported vaddr) (perform o pc i) m := by
  have hform : ∀ f, (formAddress o f m).value = (.ok (o.address f), m) := fun _ => rfl
  have hcop : m.cpu.regs.cop0.status.usable Cop.geometry → (requireCop .geometry m).value = (.ok (), m) := by
    intro hs
    show ((if !(present .geometry && m.cpu.regs.cop0.status.usable Cop.geometry) then _ else _ :
      Exec γ δ Unit) m).value = _
    rw [hs]
    rfl
  match i with
  | .jump _ _ | .register _ _ | .immediate (.alu _) _ | .immediate (.branch _) _ => cases he
  | .immediate (.load op) f =>
    cases he
    exact .after (hform f) rfl ((Reports.brought op _ _).bind fun _ _ _ => .pure _)
  | .immediate (.store op) f =>
    cases he
    exact .after (hform f) rfl ((Reports.executeStore op _ _).bind fun _ _ _ => .pure _)
  | .immediate (.lwc z) f =>
    obtain ⟨rfl, he⟩ : z = .geometry ∧ some (Access.load, o.address f) = some (access, vaddr) := by
      simpa only [Instruction.effective?, Option.ite_none_right_eq_some] using he
    cases he
    refine .bind (.after (hcop hu) rfl (.after (hform f) rfl ?_)) fun _ _ _ => .pure _
    exact (Reports.load (List.mem_singleton.mpr rfl) .word).bind fun _ _ _ => .of_ok rfl rfl
  | .immediate (.swc z) f =>
    obtain ⟨rfl, he⟩ : z = .geometry ∧ some (Access.store, o.address f) = some (access, vaddr) := by
      simpa only [Instruction.effective?, Option.ite_none_right_eq_some] using he
    cases he
    have hawait : (plain awaitGte m).value = (.ok (), (awaitGte m).value.2) := rfl
    refine .bind (.after (hcop hu) rfl (.after (hform f) rfl ?_)) fun _ _ _ => .pure _
    refine .after hawait (congrArg RegisterFile.cop0 (awaitGte_regs m)) (.after rfl rfl ?_)
    exact .store (List.mem_singleton.mpr rfl) _ .word

/-- A step whose instruction accesses memory records a hit where the data breakpoint matches the address
that it compares, traps where hits trap, and else raises no more than a bus error or an address error at an
address that it may report, which is then in BadVaddr. -/
structure Addressed (access : Access) (compared : UInt32) (reported : List UInt32) (m : Machine γ δ) :
    Prop where
  hit : (next m).value.2.cpu.regs.cop0.dcic = if m.cpu.regs.cop0.catches access compared then
    m.supplied.cpu.regs.cop0.dcic.record (Cop0.dataHit access) else m.supplied.cpu.regs.cop0.dcic
  trap : m.Raises .debug ↔ m.cpu.regs.cop0.catches access compared ∧ m.cpu.regs.cop0.dcic.tr
  fault : ∀ e, m.Raises e → e = .debug ∨ e = access.busException ∨
    ∃ v ∈ reported, e = access.addressError v ∧ (next m).value.2.cpu.regs.cop0.badVaddr = v

/-- The address compared is the effective one, but for a load of part of a word, which compares the address
of the word. -/
theorem addresses_reported {i : Instruction} (h : m.executing? = some i) {vaddr : UInt32}
    (he : i.effective? m.operands = some (access, vaddr)) (hu : i.usable m.cpu.regs.cop0.status) :
    Addressed access (i.compared vaddr) (i.reported vaddr) m := by
  have hkept := m.cop0_supplied
  have hcatches := hkept.catches access (i.compared vaddr)
  have htr : m.supplied.cpu.regs.cop0.dcic.tr = m.cpu.regs.cop0.dcic.tr :=
    hkept.dcic 31 (by decide) (by decide)
  rw [← hkept.status] at hu
  have hreports : Reports access _ _ (perform m.operands m.cpu.regs.pc i) m.supplied :=
    perform_reports he hu m.cpu.regs.pc
  cases hp : (perform m.operands m.cpu.regs.pc i m.supplied).value with
  | mk r u =>
    have hcop0 := hreports.cop0
    have htrap := hreports.trap
    -- The fetch has changed neither what the breakpoint matches nor whether hits trap.
    rw [hp, hcatches] at hcop0 htrap
    rw [htr] at htrap
    have hdcic : u.cpu.regs.cop0.dcic = if m.cpu.regs.cop0.catches access (i.compared vaddr) then
        m.supplied.cpu.regs.cop0.dcic.record (Cop0.dataHit access)
        else m.supplied.cpu.regs.cop0.dcic := by
      rw [show u.cpu.regs.cop0 = _ from hcop0]
      split <;> rfl
    cases r with
    | ok e =>
      have hsilent := not_raises_of_completed h hp
      refine ⟨?_, ?_, fun e' hraises => absurd hraises (hsilent e')⟩
      · rw [(left_of_completed h hp).cop0]
        exact hdcic
      · rw [← htrap]
        exact ⟨fun hraises => absurd hraises (hsilent _), nofun⟩
    | error e =>
      -- What is entered is the exception of the instruction, which leaves the recorded hit as it is.
      obtain ⟨hdcic', hbad⟩ := cop0_faulted h hp
      refine ⟨hdcic'.trans hdcic, ?_, fun e' he' => ?_⟩
      · rw [raises_faulted h hp, ← htrap]
        exact ⟨fun he' => congrArg _ he'.symm, fun he' => by cases he'; rfl⟩
      · cases (raises_faulted h hp).mp he'
        obtain hdebug | hbus | ⟨v, hv, rfl⟩ := hreports.raises e u hp
        · exact .inl hdebug
        · exact .inr (.inl hbus)
        · refine .inr (.inr ⟨v, hv, rfl, hbad.trans ?_⟩)
          cases access <;> rfl

/-- Before a load of part of a word, and a store of part of one, at an address with the data breakpoint on
it, and a load of part of a word that no memory holds. -/
def probing : Machine Gte.Registers Unit :=
  (booting [0x3c088000, 0x35080101, 0x40882800, 0x2409ffff, 0x40894800, 0x3c092e80, 0x40893800, 0x890a0000,
    0xa90a0000, 0x3c08c000, 0x890a0001] (by decide)).steps 7

theorem reachable_probing : probing.Reachable := .steps 7 (reachable_booting _ _)

set_option maxRecDepth 10000 in
theorem addresses_reported_probing : probing.Reachable ∧
    (next probing).value.2.cpu.regs.cop0.dcic.word = 0x2e800000 ∧
    (next (probing.after 1)).value.2.cpu.regs.cop0.dcic.word = 0x2e800015 ∧
    (next (probing.after 3)).value.2.cpu.regs.cop0.badVaddr = 0xc0000000 := by
  have hload : Instruction.effective? (.immediate (.load .lwl) ⟨8, 10, 0⟩) probing.operands =
      some (.load, 0x80000101) := by decide +kernel
  have hstore : Instruction.effective? (.immediate (.store .swl) ⟨8, 10, 0⟩) (probing.after 1).operands =
      some (.store, 0x80000101) := by decide +kernel
  have hfault : Instruction.effective? (.immediate (.load .lwl) ⟨8, 10, 1⟩) (probing.after 3).operands =
      some (.load, 0xc0000001) := by decide +kernel
  have hloaded : Addressed .load 0x80000100 [0x80000100] probing :=
    addresses_reported (by decide +kernel) hload rfl
  have hstored : Addressed .store 0x80000101 [0x80000100, 0x80000100] (probing.after 1) :=
    addresses_reported (by decide +kernel) hstore rfl
  have hfaulted : Addressed .load 0xc0000000 [0xc0000000] (probing.after 3) :=
    addresses_reported (by decide +kernel) hfault rfl
  have hraises : (probing.after 3).Raises (.addressLoad 0xc0000000) := by
    unfold Raises
    decide +kernel
  refine ⟨reachable_probing, ?_, ?_, ?_⟩
  · rw [hloaded.hit]
    decide +kernel
  · rw [hstored.hit]
    decide +kernel
  · obtain hdebug | hbus | ⟨v, hv, -, hbad⟩ := hfaulted.fault _ hraises
    · cases hdebug
    · cases hbus
    · exact hbad.trans (List.mem_singleton.mp hv)

set_option maxRecDepth 10000 in
/-- A load of part of a word at the very address of the data breakpoint is no hit, and one that faults
leaves another address than its own in BadVaddr. -/
theorem unaligned_load_elsewhere : probing.Reachable ∧
    (probing.executing? = some (.immediate (.load .lwl) ⟨8, 10, 0⟩) ∧
      probing.operands.address ⟨8, 10, 0⟩ = 0x80000101 ∧
      probing.cpu.regs.cop0.catches .load 0x80000101 ∧ ¬(next probing).value.2.cpu.regs.cop0.dcic.db) ∧
    (probing.after 3).executing? = some (.immediate (.load .lwl) ⟨8, 10, 1⟩) ∧
      (probing.after 3).operands.address ⟨8, 10, 1⟩ = 0xc0000001 ∧
      (probing.after 3).Raises (.addressLoad 0xc0000000) ∧
      (next (probing.after 3)).value.2.cpu.regs.cop0.badVaddr ≠ 0xc0000001 := by
  unfold Raises
  refine ⟨reachable_probing, ⟨?_, ?_, ?_, ?_⟩, ?_, ?_, ?_, ?_⟩ <;> decide +kernel

end Machine
end R3000
