import R3000.Proofs.LoadDelay
import R3000.Proofs.UserMode

/-! # What an instruction does to memory

Of all that an instruction does, only its loads and stores reach the caches and the bus. So what they do
to memory is what the instruction does, and a step does the same after it has got its instruction. -/
namespace R3000

def Load.width : Load → Width
  | .lb | .lbu => .byte
  | .lh | .lhu => .half
  | .lw | .lwl | .lwr => .word

namespace Instruction

/-- The virtual address and the width of what an instruction loads, if it loads anything. -/
def loads? (i : Instruction) (o : Operands) : Option (UInt32 × Width) :=
  match i with
  | .immediate (.load op) f => some (op.access (o.address f), op.width)
  | .immediate (.lwc z) f => if z = .geometry then some (o.address f, .word) else none
  | _ => none

def stores (i : Instruction) (o : Operands) : List UInt32 :=
  match i with
  | .immediate (.store op) f => op.accesses (o.address f)
  | .immediate (.swc z) f => z.accesses (o.address f)
  | _ => []

end Instruction

namespace Machine
variable {γ δ α β : Type} {m t u : Machine γ δ}

/-- Two machines have the same caches and the same bus, and nobody outside was asked for anything but a
command of the geometry engine. -/
structure Untouched (m : Machine γ δ) (r : Record) (t : Machine γ δ) : Prop where
  caches : t.cpu.caches = m.cpu.caches
  bus : t.bus = m.bus
  acts : ∀ a ∈ r.acts, ∃ c, a = .gteCommand c

theorem Untouched.of_acts {r : Record} (hc : t.cpu.caches = m.cpu.caches) (hb : t.bus = m.bus)
    (hr : r.acts = []) : Untouched m r t :=
  ⟨hc, hb, fun a ha => by rw [hr] at ha; cases ha⟩

theorem Untouched.trans {r q : Record} (h : Untouched m r t) (k : Untouched t q u) :
    Untouched m (r ++ q) u :=
  ⟨k.caches.trans h.caches, k.bus.trans h.bus, fun a ha =>
    (List.mem_append.mp ha).elim (h.acts a) (k.acts a)⟩

def untouched : Motion (Machine γ δ) where
  holds := Untouched
  still _ _ := .of_acts rfl rfl rfl
  trans := .trans

/-- The same, and they have the same status register. -/
structure Inward (m : Machine γ δ) (r : Record) (t : Machine γ δ) : Prop extends Untouched m r t where
  status : t.cpu.regs.cop0.status = m.cpu.regs.cop0.status

theorem Inward.of_acts {r : Record} (hc : t.cpu.caches = m.cpu.caches) (hb : t.bus = m.bus)
    (hs : t.cpu.regs.cop0.status = m.cpu.regs.cop0.status) (hr : r.acts = []) : Inward m r t :=
  ⟨.of_acts hc hb hr, hs⟩

def inward : Motion (Machine γ δ) where
  holds := Inward
  still _ _ := .of_acts rfl rfl rfl rfl
  trans h k := ⟨h.toUntouched.trans k.toUntouched, k.status.trans h.status⟩

theorem spend_inward (cycles : UInt64) : Moves inward (spend cycles) m :=
  .get_bind (.lift_bind (.of_acts rfl rfl rfl (acts_count _ _)) (.of_acts rfl rfl rfl rfl))

theorem awaitGte_inward : Moves inward awaitGte m := by
  refine .get_bind ?_
  dsimp only
  split
  · exact .quiet_bind (.note _) (.of_acts rfl rfl rfl rfl)
  · exact .pure _

theorem commandGte_inward (f : Register) : Moves inward (commandGte f) m := by
  have hact : ∀ t : Machine γ δ, Inward t (act (.gteCommand (f.code &&& 0x01ffffff))).record t :=
    fun t => ⟨⟨rfl, rfl, fun a ha => ⟨_, List.mem_singleton.mp ha⟩⟩, rfl⟩
  have hclock : ∀ (t : Machine γ δ) (latency : UInt64), Moves inward (do
      let clock := (← get).cpu.clock
      let gteReadyAt ← count clock.cycles latency
      plain (setClock { clock with gteReadyAt }) : Exec γ δ Unit) t := fun t _ =>
    .exec_get_bind (.exec_lift_bind (.of_acts rfl rfl rfl (acts_count _ _))
      (.plain (.of_acts rfl rfl rfl rfl)))
  have hstate : ∀ (t : Machine γ δ) (g : Machine γ δ → γ), Moves inward
      (modify fun m => { m with gteState := g m } : Exec γ δ Unit) t := fun t g =>
    .of_acts rfl rfl rfl rfl
  refine .exec_bind (.plain awaitGte_inward) fun _ t _ => .exec_lift_bind (hact t) (.exec_get_bind ?_)
  dsimp only
  split
  · exact .exec_lift_bind (inward.still t _) (.exec_bind (hstate t _) fun _ u _ => hclock u _)
  · exact .exec_bind (hstate t _) fun _ u _ => hclock u _

theorem throw_inward (e : Exception) : Moves inward (throw e : Exec γ δ α) m := inward.still m []

theorem note_throw_inward (n : Notice) (e : Exception) :
    Moves inward (do note n; throw e : Exec γ δ α) m :=
  .exec_lift_bind (inward.still m [n]) (throw_inward e)

theorem note_inward (n : Notice) : Moves inward (liftM (note n) : Exec γ δ Unit) m :=
  .exec_lift (inward.still m [n])

theorem requireCop_inward (z : Cop) : Moves inward (requireCop (γ := γ) (δ := δ) z) m := by
  refine .exec_get_bind ?_
  split
  · exact note_throw_inward _ _
  · exact .pure _

theorem checkDataBreakpoint_inward (access : Access) (vaddr : UInt32) :
    Moves inward (checkDataBreakpoint (γ := γ) (δ := δ) access vaddr) m := by
  have hrecord : Moves inward (modifyCop0 (·.record (Cop0.dataHit access))) m :=
    .plain (.of_acts rfl rfl rfl rfl)
  refine .exec_get_bind ?_
  dsimp only
  split
  · refine .exec_bind hrecord fun _ t _ => .exec_lift_bind (inward.still t _) ?_
    split
    · exact throw_inward _
    · exact .pure _
  · exact .pure _

/-- What passes its checks has left the machine as it was, and what does not has only raised. -/
theorem checkAccess_inward (access : Access) (vaddr : UInt32) (w : Width) :
    Moves inward (checkAccess (γ := γ) (δ := δ) access vaddr w) m := by
  simp only [checkAccess]
  split
  · exact .exec_lift_bind (inward.still m _) (.exec_bind (throw_inward _) fun _ _ h => by cases h)
  · refine .exec_get_bind ?_
    split
    · exact note_throw_inward _ _
    · exact .pure _

theorem formAddress_inward (o : Operands) (f : Immediate) :
    Moves inward (formAddress (γ := γ) (δ := δ) o f) m :=
  .exec_lift_bind (inward.still m _) (.pure _)

theorem resultOf_inward (r : Reg) (value : Option UInt32) :
    Moves inward (resultOf (γ := γ) (δ := δ) r value) m := by
  cases value with
  | some v => exact .pure _
  | none => exact throw_inward _

theorem resolveMulDiv_inward : Moves inward (resolveMulDiv (γ := γ) (δ := δ)) m := by
  have hresolve : (m.cpu.muldiv.resolve m.cpu.regs m.cpu.clock.retired).record.acts = [] ∧
      (m.cpu.muldiv.resolve m.cpu.regs m.cpu.clock.retired).value.2.2.cop0 = m.cpu.regs.cop0 := by
    rw [MulDivUnit.resolve_eq]
    split
    · exact ⟨rfl, rfl⟩
    · dsimp only
      split <;> exact ⟨rfl, rfl⟩
  refine .exec_get_bind (.exec_lift_bind (.of_acts rfl rfl rfl hresolve.1) ?_)
  exact .exec_bind (.plain (.of_acts rfl rfl (congrArg Cop0.status hresolve.2) rfl)) fun _ _ _ => .pure _

theorem performCop2_inward (o : Operands) (pc : UInt32) (f : Register) :
    Moves inward (performCop2 (γ := γ) (δ := δ) o pc f) m := by
  have hstate : ∀ (t : Machine γ δ) (g : Machine γ δ → γ), Moves inward
      (modify fun m => { m with gteState := g m } : Exec γ δ Unit) t := fun t g =>
    .of_acts rfl rfl rfl rfl
  refine .exec_bind (requireCop_inward _) fun _ t _ => ?_
  split
  · exact .exec_bind (commandGte_inward f) fun _ _ _ => .pure _
  split
  · exact .exec_bind (.plain awaitGte_inward) fun _ u _ => .exec_get_bind (.pure _)
  · exact .exec_bind (.plain awaitGte_inward) fun _ u _ => .exec_get_bind (.pure _)
  · exact .exec_bind (hstate t _) fun _ _ _ => .pure _
  · exact .exec_bind (hstate t _) fun _ _ _ => .pure _
  · exact .pure _
  · exact .exec_lift_bind (inward.still t _) (.pure _)

theorem performRegister_inward (o : Operands) (pc : UInt32) {op : RegisterOp} (f : Register)
    (hop : op ≠ .cop .system) : Moves inward (performRegister (γ := γ) (δ := δ) o pc op f) m := by
  cases op with
  | alu op => exact resultOf_inward _ _
  | shift op | shiftBy op | jr => exact .pure _
  | muldiv op => exact .exec_bind (.plain (.of_acts rfl rfl rfl rfl)) fun _ _ _ => .pure _
  | mfhi | mflo =>
    exact .exec_bind resolveMulDiv_inward fun _ _ _ => .exec_bind (.plain (spend_inward _)) fun _ _ _ =>
      .exec_get_bind (.pure _)
  | mthi | mtlo =>
    exact .exec_bind resolveMulDiv_inward fun _ _ _ =>
      .exec_bind (.plain (.of_acts rfl rfl rfl rfl)) fun _ _ _ => .pure _
  | jalr => exact .exec_lift_bind (inward.still m _) (.pure _)
  | syscall | brk => exact note_throw_inward _ _
  | cop z =>
    match z, hop with
    | 2, _ => exact performCop2_inward o pc f
    | 1, _ | 3, _ => exact .exec_bind (requireCop_inward _) fun _ _ _ => .pure _

theorem performCop0_untouched (o : Operands) (pc : UInt32) (f : Register) :
    Moves untouched (performCop0 (γ := γ) (δ := δ) o pc f) m := by
  have hcommand : ∀ t : Machine γ δ, Moves untouched (commandCop0 f pc) t := by
    intro t
    unfold commandCop0
    split
    · exact .exec_lift (untouched.still t _)
    · exact .exec_lift (untouched.still t _)
    · exact .exec_lift (untouched.still t _)
    · exact .exec_lift (untouched.still t _)
    · exact .exec_lift_bind (untouched.still t _) (.plain (.of_acts rfl rfl rfl))
    · exact .exec_lift (untouched.still t _)
  refine .exec_bind (requireCop_inward (m := m) .system).toUntouched fun _ t _ => ?_
  split
  · exact .exec_bind (hcommand t) fun _ _ _ => .pure _
  split
  · refine .exec_get_bind ?_
    split
    · exact .pure _
    · exact .exec_lift_bind (untouched.still t _) (.pure _)
  · refine .exec_get_bind (.exec_lift_bind (.of_acts rfl rfl (Reported.Quiet.writeCop0 _ _ _).acts) ?_)
    exact .exec_bind (.plain (.of_acts rfl rfl rfl)) fun _ _ _ => .pure _
  · exact .exec_lift_bind (untouched.still t _) (.pure _)
  · exact .exec_lift_bind (untouched.still t _) (.pure _)
  · exact .pure _
  · exact .exec_lift_bind (untouched.still t _) (.pure _)

section Moves
variable {M : Motion (Machine γ δ)}

theorem answer_moves (access : Access) (vaddr : UInt32)
    (r : Except BusError α) : Moves M (answer access vaddr r) m := by
  cases r with
  | ok a => exact .pure _
  | error e => exact .exec_lift_bind (M.quiet (.busFault access vaddr e) m) (M.still m [])

theorem brought_moves {op : Load} {vaddr : UInt32}
    (hl : ∀ t, Moves M (load (op.access vaddr) op.width) t) (current : UInt32) :
    Moves M (brought op current vaddr) m := by
  cases op with
  | lb | lh | lwl | lwr => exact .exec_bind (hl m) fun _ _ _ => .pure _
  | lbu | lhu | lw => exact hl m

theorem writePieces_moves {base : UInt32} {pieces : List (UInt32 × Width)}
    (hw : ∀ p ∈ pieces, ∀ value t, Moves M (Machine.write (base + p.1) value p.2) t) (value : UInt32) :
    Moves M (pieces.forM fun p => Machine.write (base + p.1) (value >>> (8 * p.1)) p.2 : Exec γ δ PUnit)
      m := by
  induction pieces generalizing m with
  | nil => exact .pure _
  | cons p pieces ih =>
    exact .exec_bind (hw p List.mem_cons_self _ m) fun _ _ _ =>
      ih fun q hq => hw q (List.mem_cons_of_mem p hq)

variable (hM : ∀ {m r t}, Inward m r t → M.holds m r t)
include hM

/-- A load comes from the caches or from the bus, and may fill a word of the data cache. -/
theorem load_moves {vaddr : UInt32} {w : Width}
    (hcaches : ∀ f (t : Machine γ δ), Moves M (modifyCaches f) t)
    (hbus : ∀ t : Machine γ δ, Moves M (onBus (Bus.read (translate vaddr) w)) t) :
    Moves M (load vaddr w) m := by
  have hread : ∀ t : Machine γ δ, Moves M (busRead .load vaddr (translate vaddr) w) t := fun t =>
    .exec_bind (.plain (hbus t)) fun _ _ _ => answer_moves _ _ _
  refine .exec_bind (hM (checkDataBreakpoint_inward _ _)) fun _ t _ =>
    .exec_bind (hM (checkAccess_inward _ _ _)) fun _ u _ => .exec_get_bind ?_
  dsimp only
  split
  · split
    · exact .pure _
    · exact .exec_lift_bind (M.still u _) (M.still u [])
  split
  · exact .pure _
  split
  · exact .pure _
  split
  · refine .exec_get_bind ?_
    split
    · exact .exec_lift_bind (M.still u _) (.pure _)
    · refine .exec_bind (hread u) fun _ v _ => ?_
      split
      · exact .exec_bind (hcaches _ v) fun _ _ _ => .pure _
      · exact .pure _
  · exact hread u

theorem store_moves {vaddr : UInt32} {w : Width}
    (hw : ∀ value t, Moves M (Machine.write vaddr value w) t) (value : UInt32) :
    Moves M (store vaddr value w) m :=
  .exec_bind (hM (checkDataBreakpoint_inward _ _)) fun _ _ _ =>
    .exec_bind (hM (checkAccess_inward _ _ _)) fun _ t _ => hw value t

theorem storePieces_moves {vaddr : UInt32} {pieces : List (UInt32 × Width)}
    (hw : ∀ p ∈ pieces, ∀ value t, Moves M (Machine.write (Lane.base vaddr + p.1) value p.2) t)
    (value : UInt32) : Moves M (storePieces vaddr value pieces) m :=
  .exec_bind (hM (checkDataBreakpoint_inward _ _)) fun _ _ _ =>
    .exec_bind (hM (checkAccess_inward _ _ _)) fun _ _ _ => writePieces_moves hw value

theorem executeStore_moves {op : Store} {vaddr : UInt32}
    (hw : ∀ v ∈ op.accesses vaddr, ∀ value w t, Moves M (Machine.write v value w) t) (value : UInt32) :
    Moves M (executeStore op vaddr value) m := by
  cases op with
  | sb | sh | sw => exact store_moves hM (hw _ List.mem_cons_self · _ ·) _
  | swl =>
    rw [executeStore_swl]
    exact storePieces_moves hM (fun p hp value t => hw _ (List.mem_map_of_mem hp) value p.2 t) _
  | swr =>
    rw [executeStore_swr]
    exact storePieces_moves hM (fun p hp value t => hw _ (List.mem_map_of_mem hp) value p.2 t) _

/-- An instruction moves memory as its load does, or as its stores do. -/
theorem perform_moves {o : Operands} {i : Instruction}
    (hl : ∀ v w, i.loads? o = some (v, w) → ∀ t, Moves M (load v w) t)
    (hw : ∀ v ∈ i.stores o, ∀ value w t, Moves M (Machine.write v value w) t) (pc : UInt32)
    (hc : ∀ f, i = .register (.cop .system) f → Moves M (performCop0 o pc f) m) :
    Moves M (perform o pc i) m := by
  cases i with
  | jump op f =>
    cases op with
    | j => exact .pure _
    | jal => exact .exec_lift_bind (M.still m _) (.pure _)
  | register op f =>
    by_cases hop : op = .cop .system
    · subst hop
      exact hc f rfl
    · exact hM (performRegister_inward o pc f hop)
  | immediate op f =>
    cases op with
    | alu op => exact hM (resultOf_inward _ _)
    | branch op => exact .pure _
    | load op =>
      refine .exec_bind (hM (formAddress_inward o f)) fun vaddr t ht => ?_
      cases ht
      exact .exec_bind (brought_moves (hl _ _ rfl) _) fun _ _ _ => .pure _
    | store op =>
      refine .exec_bind (hM (formAddress_inward o f)) fun vaddr t ht => ?_
      cases ht
      exact .exec_bind (executeStore_moves hM hw _) fun _ _ _ => .pure _
    | lwc z =>
      refine .exec_bind (.exec_bind (hM (requireCop_inward z)) fun _ t _ =>
        .exec_bind (hM (formAddress_inward o f)) fun vaddr u hu => ?_) fun _ _ _ => .pure _
      cases hu
      split
      · refine .exec_bind (hl _ _ (if_pos ‹_›) _) fun _ _ _ => hM ?_
        exact .of_acts rfl rfl rfl rfl
      · exact hM (note_inward _)
    | swc z =>
      refine .exec_bind (.exec_bind (hM (requireCop_inward z)) fun _ t _ =>
        .exec_bind (hM (formAddress_inward o f)) fun vaddr u hu => ?_) fun _ _ _ => .pure _
      cases hu
      split
      · subst z
        refine .exec_bind (.plain (hM awaitGte_inward)) fun _ v _ => .exec_get_bind ?_
        exact store_moves hM (hw _ List.mem_cons_self · _ ·) _
      · exact hM (note_inward _)

end Moves

/-- What a computation does from isolated caches on, and that they stay isolated. -/
def isolating (T : Motion (Machine γ δ)) : Motion (Machine γ δ) where
  holds m r t := m.cpu.regs.cop0.status.isc → t.cpu.regs.cop0.status.isc ∧ T.holds m r t
  still m notices h := ⟨h, T.still m notices⟩
  trans h k hm := ⟨(k (h hm).1).1, T.trans (h hm).2 (k (h hm).1).2⟩

theorem load_isolates (vaddr : UInt32) (w : Width) : Moves (isolating inward) (load vaddr w) m := by
  have hin : ∀ {m : Machine γ δ} {r t}, Inward m r t → (isolating inward).holds m r t :=
    fun h hm => ⟨h.status ▸ hm, h⟩
  refine .exec_bind (hin (checkDataBreakpoint_inward _ _)) fun _ t _ =>
    .exec_bind (hin (checkAccess_inward _ _ _)) fun _ u _ => .exec_get_bind ?_
  dsimp only
  split
  · split
    · exact .pure _
    · exact .exec_lift_bind ((isolating inward).still u _) ((isolating inward).still u [])
  split
  · exact .pure _
  · exact fun hu => absurd hu ‹_›

/-- An isolated store changes the instruction cache, or else a word of the data array, or nothing. -/
theorem isolatedStore_moves {M : Motion (Machine γ δ)} {addr value : UInt32} {w : Width}
    (hinstr : m.cpu.caches.biu.is1 → ∀ f : Caches → Caches, (f m.cpu.caches).data = m.cpu.caches.data →
      (f m.cpu.caches).biu = m.cpu.caches.biu → Moves M (modifyCaches f) m)
    (hdata : ¬m.cpu.caches.biu.is1 → m.cpu.caches.biu.ds →
      Moves M (modifyCaches fun c => { c with data := c.data.storeIsolated addr value w }) m) :
    Moves M (isolatedStore addr value w) m := by
  refine .exec_get_bind ?_
  dsimp only
  split
  · split
    · exact .exec_lift_bind (M.quiet (.invalidateLine _ _) m) (hinstr ‹_› _ rfl rfl)
    · exact hinstr ‹_› _ rfl rfl
  split
  · exact hdata ‹_› ‹_›
  · exact .exec_lift (M.still m _)

/-- A write goes to the caches or to the bus. -/
theorem write_moves {M : Motion (Machine γ δ)} {vaddr value : UInt32} {w : Width}
    (hcaches : ∀ f (t : Machine γ δ), Moves M (modifyCaches f) t)
    (hbus : ∀ t : Machine γ δ, Moves M (onBus (Bus.write (translate vaddr) value w)) t) :
    Moves M (write vaddr value w) m := by
  have hask : ∀ t : Machine γ δ, Moves M
      (do answer .store vaddr (← plain (onBus (Bus.write (translate vaddr) value w))) : Exec γ δ Unit) t :=
    fun t => .exec_bind (.plain (hbus t)) fun _ _ _ => answer_moves _ _ _
  refine .exec_get_bind ?_
  dsimp only
  split
  · split
    · exact .exec_lift_bind (M.quiet (.setBiu _ _) m) (hcaches _ m)
    · exact .exec_lift_bind (M.still m _) (M.still m [])
  split
  · exact isolatedStore_moves (fun _ f _ _ => hcaches f m) fun _ _ => hcaches _ m
  split
  · exact hcaches _ m
  split
  · exact .exec_bind (hcaches _ m) fun _ t _ => hask t
  · exact hask m

section Isolated
variable {T : Motion (Machine γ δ)}

/-- A store with isolated caches is one to the control word, or else an isolated one. -/
theorem write_isolates {vaddr value : UInt32} {w : Width}
    (hbiu : Segment.of vaddr = .kseg2 → ∀ word,
      Moves (isolating T) (modifyCaches fun _ => (m.cpu.caches.setBiu word).value) m)
    (hstore : Segment.of vaddr ≠ .kseg2 →
      Moves (isolating T) (isolatedStore (translate vaddr) value w) m) :
    Moves (isolating T) (write vaddr value w) m := by
  refine .exec_get_bind ?_
  dsimp only
  split
  · split
    · exact .exec_lift_bind ((isolating T).quiet (.setBiu _ _) m) (hbiu ‹_› _)
    · exact .exec_lift_bind ((isolating T).still m _) ((isolating T).still m [])
  split
  · exact hstore ‹_›
  · exact fun hm => absurd hm ‹_›

/-- With isolated caches an instruction moves memory as its stores do. -/
theorem perform_isolates (h : m.cpu.regs.cop0.status.isc)
    (hT : ∀ {m r t}, Untouched m r t → T.holds m r t) {o : Operands} {i : Instruction}
    (hw : ∀ v ∈ i.stores o, ∀ value w t, Moves (isolating T) (write v value w) t) (pc : UInt32) :
    T.holds m (perform o pc i m).record (perform o pc i m).value.2 := by
  have hin : ∀ {m r t}, Inward m r t → (isolating T).holds m r t := fun k hm =>
    ⟨k.status ▸ hm, hT k.toUntouched⟩
  by_cases hc : ∃ f, i = .register (.cop .system) f
  · -- only these can end the isolation
    obtain ⟨f, rfl⟩ := hc
    exact hT (performCop0_untouched o pc f)
  · have hperform : Moves (isolating T) (perform o pc i) m :=
      perform_moves hin (fun v w _ t ht => hin (load_isolates v w ht).2 ht) hw pc fun f hf =>
        absurd ⟨f, hf⟩ hc
    exact (hperform h).2

end Isolated

/-- The machine when a step has fetched its instruction, or has found that it has none to execute. -/
def supplied (m : Machine γ δ) : Machine γ δ :=
  if m.opened.cpu.regs.cop0.interrupted then m.opened else (obtain m.cpu.regs.pc m.opened).value.2

/-- Up to the fetch only the instruction cache and the hits of breakpoints have changed, and a serial port
whose data register the instruction is fetched from. -/
theorem supplied_kept (m : Machine γ δ) : Kept (portAt m.cpu.regs.pc) m m.supplied ∧
    m.supplied.cpu.regs.cop0.status = m.cpu.regs.cop0.status := by
  have hopened : Kept (portAt m.cpu.regs.pc) m m.opened :=
    ⟨rfl, rfl, rfl, rfl, rfl, rfl, rfl, rfl, rfl, .refl _ m.bus⟩
  simp only [supplied]
  split
  · exact ⟨hopened, rfl⟩
  · have hkept : Moves (kept _) (obtain m.cpu.regs.pc) m.opened := obtain_kept m.cpu.regs.pc
    have hmarked := (kept_obtained (t := (obtain m.cpu.regs.pc m.opened).value.2) rfl).1
    exact ⟨hopened.trans hkept.1, hmarked.status⟩

/-- Two machines have the same caches, the same bus and the same geometry engine. -/
structure Backs (t u : Machine γ δ) : Prop where
  caches : u.cpu.caches = t.cpu.caches
  bus : u.bus = t.bus
  gteState : u.gteState = t.gteState

theorem Backs.trans (h : Backs m t) (k : Backs t u) : Backs m u :=
  ⟨k.caches.trans h.caches, k.bus.trans h.bus, k.gteState.trans h.gteState⟩

/-- What a step does behind the registers: what its instruction does, if it executes one, and nothing
else from the fetch on. -/
inductive Performed (m : Machine γ δ) : Option Instruction → Machine γ δ → Prop
  | unexecuted {t : Machine γ δ} : Backs m.supplied t → Performed m none t
  | faulted {i : Instruction} {e : Exception} {t u : Machine γ δ} : ¬m.Undisturbed →
      (perform m.operands m.cpu.regs.pc i m.supplied).value = (.error e, u) → Backs u t →
      Performed m none t
  | completed {i : Instruction} {t u : Machine γ δ} : m.Undisturbed →
      (perform m.operands m.cpu.regs.pc i m.supplied).value = (.ok m.effect, u) → Backs u t →
      Performed m (some i) t

theorem finish_backs (d : BranchDelay) (e : Effect) (t : Machine γ δ) :
    Backs t (finish d e t).value.2 := by
  cases e <;> cases d <;> exact ⟨rfl, rfl, rfl⟩

theorem effect_completed (h : ¬m.opened.cpu.regs.cop0.interrupted) {word : UInt32} {i : Instruction}
    {e : Effect} (ho : (obtain m.cpu.regs.pc m.opened).value = (.ok word, t))
    (hd : Instruction.decode word = some i)
    (hp : (perform m.operands m.cpu.regs.pc i t).value = (.ok e, u)) : m.effect = e := by
  have hwork : (work m.operands m).value.1.2 = e := by
    rw [work_decoded h ho hd]
    exact congrArg (fun p : (Attempt × Effect) × Machine γ δ => p.1.2)
      (value_then (x := (perform _ _ _).run) hp _)
  exact hwork

/-- To retire leaves memory alone. -/
theorem attempt_backs (m : Machine γ δ) : Backs (attempt m).value.2 (step m).value.2 := by
  have hretired := conclude_retired (attempt m).value.1 (attempt m).value.2
  rw [← step_value] at hretired
  exact ⟨hretired.caches, hretired.bus, hretired.gteState⟩

theorem performed (m : Machine γ δ) : Performed m m.completed? (step m).value.2 := by
  have hcourse := m.course
  have hbacks := m.attempt_backs
  generalize hm : m.completed? = c at *
  generalize ha : (attempt m).value = p at *
  obtain ⟨a, t⟩ := p
  have hfetched : ∀ {r u}, ¬m.opened.cpu.regs.cop0.interrupted →
      (obtain m.cpu.regs.pc m.opened).value = (r, u) → m.supplied = u := by
    intro r u hi ho
    simp only [supplied]
    rw [if_neg hi, ho]
  cases hcourse with
  | interrupted hi =>
    refine .unexecuted ?_
    rw [supplied, if_pos hi]
    exact hbacks
  | refused hi ho => exact .unexecuted (hfetched hi ho ▸ hbacks)
  | skipped hi ho hd => exact .unexecuted (hfetched hi ho ▸ hbacks)
  | faulted hi ho hd hp =>
    refine .faulted ?_ (hfetched hi ho ▸ hp) hbacks
    simp only [Undisturbed]
    rw [ha]
    exact Option.some_ne_none _
  | completed hi ho hd hp =>
    refine .completed ?_ ?_ ((finish_backs _ _ _).trans hbacks)
    · simp only [Undisturbed]
      rw [ha]
    · rw [hfetched hi ho, effect_completed hi ho hd hp]
      exact hp

theorem performed_of_completed {i : Instruction} (h : m.completed? = some i) :
    ∃ u, (perform m.operands m.cpu.regs.pc i m.supplied).value = (.ok m.effect, u) ∧
      Backs u (step m).value.2 := by
  have hperformed := m.performed
  rw [h] at hperformed
  cases hperformed with
  | completed _ hp hbacks => exact ⟨_, hp, hbacks⟩

end Machine
end R3000
