import R3000.Proofs.DeviceAddresses
import R3000.Proofs.OperandClosure
import R3000.Proofs.PreciseExceptions

/-! # What instructions leave alone

Of the system control registers only moves to them and commands change more than the hits that are
recorded of breakpoints. In user mode instructions leave the control word of the caches alone as well,
and the device is asked only about addresses behind kuseg. -/
namespace R3000

theorem Segment.of_eq_kuseg {vaddr : UInt32} : Segment.of vaddr = .kuseg ↔ vaddr < 0x80000000 := by
  unfold Segment.of
  split
  · simp [*]
  · split
    · simp [*]
    · split <;> simp [*]

def forUser (ok : UInt32 → Prop) (user : Bool) (addr : UInt32) : Prop := user → ok addr

def behindKuseg (addr : UInt32) : Prop := ∃ vaddr, Segment.of vaddr = .kuseg ∧ translate vaddr = addr

theorem admits_behindKuseg (vaddr : UInt32) : Admits (forUser behindKuseg) vaddr :=
  fun _ hseg hu => ⟨vaddr, hseg hu, rfl⟩

theorem behindKuseg_of_lt {addr : UInt32} (h : addr < 0x20000000) : behindKuseg addr := by
  rw [UInt32.lt_iff_toNat_lt] at h
  have hseg : Segment.of addr = .kuseg := Segment.of_eq_kuseg.mpr (by
    rw [UInt32.lt_iff_toNat_lt]
    exact Nat.lt_trans h (by decide))
  refine ⟨addr, hseg, ?_⟩
  simp only [translate]
  rw [hseg, ← UInt32.toNat_inj, UInt32.toNat_and]
  exact (Nat.and_two_pow_sub_one_eq_mod _ 29).trans (Nat.mod_eq_of_lt h)

/-- A line lies behind kuseg as a whole. -/
theorem admitsFetch_behindKuseg (pc : UInt32) : AdmitsFetch (forUser behindKuseg) pc := by
  intro user hseg
  refine ⟨admits_behindKuseg pc user hseg, fun w hu => behindKuseg_of_lt ?_⟩
  have htranslate : (translate pc).toNat < 0x20000000 := by
    simp only [translate]
    rw [hseg hu, UInt32.toNat_and]
    exact Nat.lt_of_le_of_lt Nat.and_le_right (by decide)
  rw [UInt32.lt_iff_toNat_lt, ICache.Address.toNat_wordAddr]
  simp only [UInt32.reduceToNat]
  omega

/-- The system control registers are the same but for the hits that are recorded of breakpoints. -/
structure Cop0.Marked (c d : Cop0) : Prop where
  same : d = { c with dcic := d.dcic }
  dcic : ∀ i, 6 ≤ i → i < 32 → Word.bit d.dcic.word i = Word.bit c.dcic.word i

namespace Cop0.Marked
variable {c d e : Cop0}

theorem refl (c : Cop0) : Marked c c := ⟨rfl, fun _ _ _ => rfl⟩

theorem trans (h : Marked c d) (k : Marked d e) : Marked c e := by
  refine ⟨?_, fun i hi hi' => (k.dcic i hi hi').trans (h.dcic i hi hi')⟩
  rw [k.same, h.same]

theorem record (c : Cop0) {hits : UInt32} (h : hits.toNat < 64) : Marked c (c.record hits) := by
  refine ⟨rfl, fun i hi hi' => ?_⟩
  have hkeep : ∀ i < 32, 6 ≤ i → Word.bit 0x3f i = false := by decide
  have hpow : 2 ^ 6 ≤ 2 ^ i := Nat.pow_le_pow_right (by decide) hi
  have hhits : Word.bit hits i = false := Nat.testBit_lt_two_pow (Nat.lt_of_lt_of_le h hpow)
  simp [Cop0.record, Dcic.record, Word.bit_not _ hi', hkeep i hi' hi, hhits]

theorem status (h : Marked c d) : d.status = c.status := by rw [h.same]

end Cop0.Marked

namespace Machine
variable {γ δ α β : Type} {m t u : Machine γ δ} {ok : UInt32 → Prop}

/-- Of the system control registers only the recorded hits change. In user mode the control word of the
caches does not change either, and the device is asked only about such addresses. -/
def restraint (γ δ : Type) (ok : UInt32 → Prop) : Motion (Machine γ δ) where
  holds m r t := m.cpu.regs.cop0.Marked t.cpu.regs.cop0 ∧
    (m.userMode → t.cpu.caches.biu = m.cpu.caches.biu ∧ r.Asks ok)
  still m _ := ⟨.refl _, fun _ => ⟨rfl, .of_acts rfl⟩⟩
  trans := by
    intro m t u r q h k
    refine ⟨h.1.trans k.1, fun hm => ?_⟩
    obtain ⟨hbiu, hr⟩ := h.2 hm
    obtain ⟨kbiu, hq⟩ := k.2 (by simp only [userMode] at hm ⊢; rwa [h.1.status])
    exact ⟨kbiu.trans hbiu, hr.append hq⟩

/-- The computation keeps to the restraint, and raises only exceptions of its own. -/
structure Restrained (ok : UInt32 → Prop) (x : Exec γ δ α) (m : Machine γ δ) : Prop where
  moves : Moves (restraint γ δ ok) x m
  raises : ∀ e t, (x m).value = (.error e, t) → e.Synchronous

namespace Restrained

/-- What the restraint says of the machine that a computation ends in. -/
theorem kept {x : Exec γ δ α} (h : Restrained ok x m) {r : Except Exception α}
    (hv : (x m).value = (r, t)) : m.cpu.regs.cop0.Marked t.cpu.regs.cop0 ∧
      (m.userMode → t.cpu.caches.biu = m.cpu.caches.biu) := by
  have hmoves : (restraint γ δ ok).holds _ _ _ := h.moves
  rw [hv] at hmoves
  exact ⟨hmoves.1, fun hm => (hmoves.2 hm).1⟩

theorem userMode {x : Exec γ δ α} (h : Restrained ok x m) {r : Except Exception α}
    (hv : (x m).value = (r, t)) : t.userMode = m.userMode := by
  simp only [Machine.userMode]
  rw [(h.kept hv).1.status]

theorem asks {x : Exec γ δ α} (h : Restrained ok x m) (hm : m.userMode) :
    Moves (asking ok) x m := by
  have hmoves : (restraint γ δ ok).holds _ _ _ := h.moves
  exact (hmoves.2 hm).2

theorem of_total {x : Exec γ δ α} (h : Moves (restraint γ δ ok) x m) (ht : Total x) : Restrained ok x m := by
  exact ⟨h, fun e t he => absurd he ht.no_error⟩

theorem plain {x : Run γ δ α} (h : Moves (restraint γ δ ok) x m) : Restrained ok (R3000.plain x) m :=
  .of_total (.plain h) (.plain x)

theorem seq {x : Exec γ δ α} {f : α → Exec γ δ β} (hx : Restrained ok x m)
    (hf : ∀ a t, (x m).value = (.ok a, t) → Restrained ok (f a) t) : Restrained ok (x >>= f) m := by
  refine ⟨.exec_bind hx.moves fun a t h => (hf a t h).moves, fun e u he => ?_⟩
  rcases exec_bind_error_inv he with he | ⟨a, t, hv, he⟩
  · exact hx.raises e u he
  · exact (hf a t hv).raises e u he

theorem modifyCpu {f : Cpu → Cpu} (hc : m.cpu.regs.cop0.Marked (f m.cpu).regs.cop0)
    (hb : m.userMode → (f m.cpu).caches.biu = m.cpu.caches.biu) :
    Restrained ok (R3000.plain (Machine.modifyCpu f)) m :=
  .plain ⟨hc, fun hm => ⟨hb hm, .of_acts rfl⟩⟩

theorem onBus {x : Bus.Op δ α} (hx : m.userMode → Moves (asking ok) x m.bus) :
    Restrained ok (R3000.plain (onBus x)) m :=
  .plain ⟨.refl _, fun hm => ⟨rfl, hx hm⟩⟩

theorem setClock (clock : Clock) : Moves (restraint γ δ ok) (setClock clock) m :=
  ⟨.refl _, fun _ => ⟨rfl, .of_acts rfl⟩⟩

theorem of_acts {r : Record} (hr : r.acts = []) (m : Machine γ δ) : (restraint γ δ ok).holds m r m :=
  ⟨.refl _, fun _ => ⟨rfl, .of_acts hr⟩⟩

theorem spend (cycles : UInt64) : Moves (restraint γ δ ok) (spend cycles) m :=
  .get_bind (.lift_bind (of_acts (acts_count _ _) m) (setClock _))

theorem awaitGte : Moves (restraint γ δ ok) awaitGte m := by
  refine .get_bind ?_
  dsimp only
  split
  · exact .quiet_bind (.note _) (setClock _)
  · exact .pure _

theorem resolveMulDiv : Moves (restraint γ δ ok) resolveMulDiv m := by
  refine .exec_get_bind (.exec_lift_bind ((restraint γ δ ok).quiet (.resolveMulDiv _ _ _) m) ?_)
  refine .exec_bind (.plain ⟨?_, fun _ => ⟨rfl, .of_acts rfl⟩⟩) fun _ _ _ => .pure _
  show m.cpu.regs.cop0.Marked
    (m.cpu.muldiv.resolve m.cpu.regs m.cpu.clock.retired).value.2.2.cop0
  rw [MulDivUnit.resolve_eq]
  cases m.cpu.muldiv.pending with
  | none => exact .refl _
  | some p =>
    dsimp only
    split <;> exact .refl _

theorem commandGte (f : Register) : Moves (restraint γ δ ok) (commandGte f) m := by
  have hrest : ∀ (s : γ) (latency : UInt32) (t : Machine γ δ), Moves (restraint γ δ ok)
      (do
        modify fun m => { m with gteState := s }
        let clock := (← get).cpu.clock
        let gteReadyAt ← count clock.cycles latency.toUInt64
        R3000.plain (Machine.setClock { clock with gteReadyAt }) : Exec γ δ Unit) t := by
    intro s latency t
    refine .exec_bind ⟨.refl _, fun _ => ⟨rfl, .of_acts rfl⟩⟩ fun _ u _ => .exec_get_bind ?_
    exact .exec_lift_bind (of_acts (acts_count _ _) u) (.plain (setClock _))
  refine .exec_bind (.plain awaitGte) fun _ t _ => .exec_lift_bind ?_ (.exec_get_bind ?_)
  · refine ⟨.refl _, fun _ => ⟨rfl, .of_inward fun a ha => ?_⟩⟩
    rw [List.mem_singleton.mp ha]
    rfl
  dsimp only
  split
  · exact .exec_lift_bind ((restraint γ δ ok).still t _) (hrest _ _ _)
  · exact hrest _ _ _

theorem closed (ok : UInt32 → Prop) :
    ClosedAt (γ := γ) (δ := δ) (forUser ok) fun _ x m => Restrained ok x m where
  ret a m := .of_total (.pure a) (.pure a)
  seq hx hf := hx.seq hf
  fail m he := ⟨(restraint γ δ ok).still m [], fun e t h => by cases h; exact he⟩
  look hk hf := ⟨.exec_get_bind hf.moves, hf.raises⟩
  report m hx := .of_total (.exec_lift ((restraint γ δ ok).quiet hx m)) (.lift _)
  hit hits m hh := modifyCpu (.record _ hh) fun _ => rfl
  writeHi _ _ := modifyCpu (.refl _) fun _ => rfl
  writeLo _ _ := modifyCpu (.refl _) fun _ => rfl
  writeCaches _ _ hf := modifyCpu (.refl _) hf
  issue _ _ _ _ := modifyCpu (.refl _) fun _ => rfl
  resolve _ := .of_total resolveMulDiv resolveMulDiv_total
  await _ := plain awaitGte
  pass _ _ := plain (spend _)
  command f _ := .of_total (commandGte f) (commandGte_total f)
  writeGte _ _ _ := .of_total ⟨.refl _, fun _ => ⟨rfl, .of_acts rfl⟩⟩ (.modify _)
  busRead _ w _ ha := onBus fun hm => Bus.read_asks (ha hm) w
  busWrite _ value w _ ha := onBus fun hm => Bus.write_asks (ha hm) value w
  fetchLine c addr _ ha := onBus fun hm => Bus.fetchLine_asks c fun w => ha w hm

theorem obtain (pc : UInt32) : Restrained behindKuseg (obtain pc) m :=
  (closed _).beside.obtain (admitsFetch_behindKuseg pc)

/-- What may not keep to the restraint does not come into it where an exception is raised before. -/
theorem seq_error {x : Exec γ δ α} {f : α → Exec γ δ β} (hx : Restrained ok x m)
    (hf : ∀ a, Total (f a)) {e : Exception} (h : ((x >>= f : Exec γ δ β) m).value = (.error e, t)) :
    Restrained ok (x >>= f) m := by
  rcases exec_bind_error_inv h with hv | ⟨a, u, -, h⟩
  · have hmoves := hx.moves
    refine ⟨?_, fun e' u hu => ?_⟩
    · simp only [Moves] at hmoves ⊢
      rw [exec_bind_error hv]
      rwa [hv] at hmoves
    · rw [h] at hu
      cases hu
      exact hx.raises e t hv
  · exact absurd h (hf a).no_error

theorem performCop0 {o : Operands} {pc : UInt32} {f : Register} {e : Exception}
    (h : (performCop0 o pc f m).value = (.error e, t)) : Restrained ok (performCop0 o pc f) m := by
  refine seq_error ((closed ok).beside.requireCop _) (fun _ => ?_) h
  split
  · exact .bind (commandCop0_total f pc) fun _ => .pure _
  split
  · refine .get_bind fun m => ?_
    split
    · exact .pure _
    · exact .bind (.lift _) fun _ => .pure _
  · exact .get_bind fun m => .bind (.lift _) fun _ => .bind (.plain _) fun _ => .pure _
  · exact .bind (.lift _) fun _ => .pure _
  · exact .bind (.lift _) fun _ => .pure _
  · exact .pure _
  · exact .bind (.lift _) fun _ => .pure _

/-- An instruction that raises an exception keeps to the restraint, whatever its kind. -/
theorem perform {o : Operands} {pc : UInt32} {i : Instruction} {e : Exception}
    (h : (perform o pc i m).value = (.error e, t)) : Restrained behindKuseg (perform o pc i) m := by
  refine (closed _).perform (fun v _ => admits_behindKuseg v) pc fun f hi => ?_
  subst hi
  exact performCop0 h

end Restrained
end Machine
end R3000
