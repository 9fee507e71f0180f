import R3000.Proofs.DataCache
import R3000.Proofs.Execution
import R3000.Proofs.Runs
import R3000.Proofs.UnalignedWords

/-! # Unaligned accesses in two halves

Each of two loads merges its half of a word into the register, the second into the value that the first
has on its way there. Each of two stores writes its half and nothing beside it. So it makes no difference
which half comes first. -/
namespace R3000

namespace Machine
variable {γ δ : Type} {m t u : Machine γ δ} {vaddr v : UInt32} {access : Access}

/-- The word around a virtual address lies in RAM and can be accessed there: the mode admits it, the
caches are neither isolated nor in the way, and no breakpoint is on it. -/
structure Accessible (access : Access) (vaddr : UInt32) (m : Machine γ δ) : Prop where
  ram : translate vaddr < ramWindowEnd
  mode : (Segment.of vaddr).kernel → ¬m.cpu.regs.cop0.status.kuC
  unisolated : m.cpu.regs.cop0.status.isc = false
  uncached : m.cpu.caches.biu.dataCache = false
  unwatched : ∀ a, Lane.base a = Lane.base vaddr → m.cpu.regs.cop0.catches access a = false

def withRam (m : Machine γ δ) (ram : MainRam) : Machine γ δ := { m with bus := { m.bus with ram } }

namespace Accessible

theorem congr (h : m.Accessible access vaddr) (hb : Lane.base v = Lane.base vaddr) :
    m.Accessible access v := by
  refine ⟨?_, ?_, h.unisolated, h.uncached, fun a ha => h.unwatched a (ha.trans hb)⟩
  · refine (Lane.base_lt rfl).mp ?_
    rw [← translate_base, hb, translate_base]
    exact (Lane.base_lt rfl).mpr h.ram
  · rw [← Segment.of_base, hb, Segment.of_base]
    exact h.mode

theorem kept (h : m.Accessible access vaddr) (hc : m.cpu.regs.cop0.Kept t.cpu.regs.cop0)
    (hb : t.cpu.caches.biu = m.cpu.caches.biu) : t.Accessible access vaddr := by
  refine ⟨h.ram, ?_, ?_, ?_, fun a ha => (hc.catches access a).trans (h.unwatched a ha)⟩
  · rw [hc.status]
    exact h.mode
  · rw [hc.status]
    exact h.unisolated
  · rw [hb]
    exact h.uncached

theorem withRam (h : m.Accessible access vaddr) (ram : MainRam) :
    (m.withRam ram).Accessible access vaddr := h.kept (.refl _) rfl

theorem checkDataBreakpoint (h : m.Accessible access vaddr) (hb : Lane.base v = Lane.base vaddr) :
    (checkDataBreakpoint access v m).value = (.ok (), m) := by
  show ((if m.cpu.regs.cop0.catches access v then _ else _ : Exec γ δ Unit) m).value = _
  rw [if_neg (ne_true_of_eq_false (h.unwatched v hb))]
  rfl

theorem checkAccess (h : m.Accessible access vaddr) {w : Width} (hw : w.aligned vaddr) :
    (checkAccess access vaddr w m).value = (.ok (), m) := by
  have hmode : ¬((Segment.of vaddr).kernel && m.cpu.regs.cop0.status.kuC) := fun hk =>
    h.mode (Bool.and_eq_true_iff.mp hk).1 (Bool.and_eq_true_iff.mp hk).2
  simp only [Machine.checkAccess]
  rw [hw, if_neg (show ¬(!true) by decide)]
  show ((if _ then _ else _ : Exec γ δ Unit) m).value = _
  rw [if_neg hmode]
  rfl

/-- Of the ways that an access can go, the one by the bus is left. -/
theorem route (h : m.Accessible access vaddr) {α : Type}
    {biu isolated scratchpad cached bus : Exec γ δ α} :
    (if Segment.of vaddr = .kseg2 then biu
      else if m.cpu.regs.cop0.status.isc then isolated
      else if (Segment.of vaddr).cached && DataArray.covers (translate vaddr) &&
        m.cpu.caches.biu.scratchpad then scratchpad
      else if (Segment.of vaddr).cached && m.cpu.caches.biu.dataCache &&
        decide (translate vaddr < ramWindowEnd) then cached
      else bus) = bus := by
  have hseg : Segment.of vaddr ≠ .kseg2 := by
    intro hs
    have hlow : vaddr < 0x80000000 := by
      have hram := h.ram
      simp only [translate, hs] at hram
      exact UInt32.lt_trans hram (by decide)
    rw [Segment.of, if_pos hlow] at hs
    cases hs
  rw [if_neg hseg, h.unisolated, if_neg Bool.false_ne_true, covers_ram h.ram, h.uncached]
  simp only [Bool.and_false, Bool.false_and, Bool.false_eq_true, if_false]

theorem load (h : m.Accessible .load vaddr) : (load (Lane.base vaddr) .word m).value =
    (.ok (m.bus.ram.word (translate vaddr)), m) := by
  have hb := h.congr (Lane.base_base vaddr)
  have hw := Width.word_aligned_base vaddr
  have hread : m.bus.ram.read ((translate (Lane.base vaddr)).toNat % ramSize) .word =
      m.bus.ram.word (translate vaddr) := by
    rw [m.bus.ram.read_eq_extract (translate_aligned hw), Lane.extract_word (translate_aligned hw),
      translate_base, MainRam.word_base]
  simp only [Machine.load]
  rw [exec_bind_ok (h.checkDataBreakpoint (Lane.base_base vaddr)), exec_bind_ok (hb.checkAccess hw)]
  refine (congrArg (fun x : Exec γ δ UInt32 => (x m).value) hb.route).trans ?_
  rw [busRead_ram hb.ram .word .load, hread]

theorem write (h : m.Accessible .store vaddr) (value : UInt32) (w : Width) :
    (write vaddr value w m).value = (.ok (), m.withRam (m.bus.ram.write (ramOffset vaddr) value w)) := by
  refine (congrArg (fun x : Exec γ δ Unit => (x m).value) h.route).trans ?_
  exact busWrite_ram h.ram w value

section Pieces
variable {l : Fin 4} {pieces : List (UInt32 × Width)} (h : m.Accessible .store vaddr)
  (hp : ∀ p ∈ pieces, p ∈ Lane.upTo l ++ Lane.onward l)
include h hp

theorem writePieces (value : UInt32) : ∃ ram, MainRam.Patched pieces vaddr value m.bus.ram ram ∧
      ((pieces.forM fun p => Machine.write (Lane.base vaddr + p.1) (value >>> (8 * p.1)) p.2 :
        Exec γ δ PUnit) m).value = (.ok (), m.withRam ram) := by
  induction pieces generalizing m with
  | nil => exact ⟨m.bus.ram, fun j => (if_neg fun hin => by simpa [Lane.Covers] using hin.2.2).symm, rfl⟩
  | cons p pieces ih =>
    have hfirst := hp p List.mem_cons_self
    have hwrite := (h.congr (Lane.base_add_piece hfirst vaddr)).write (value >>> (8 * p.1)) p.2
    obtain ⟨ram, hpatched, hrest⟩ := ih (h.withRam _) fun q hq => hp q (List.mem_cons_of_mem p hq)
    refine ⟨ram, (MainRam.patched_piece m.bus.ram hfirst vaddr value).cons hpatched, ?_⟩
    show ((Machine.write (Lane.base vaddr + p.1) (value >>> (8 * p.1)) p.2 >>= fun _ =>
      pieces.forM fun p => Machine.write (Lane.base vaddr + p.1) (value >>> (8 * p.1)) p.2 :
        Exec γ δ PUnit) m).value = _
    rw [exec_bind_ok hwrite]
    exact hrest

theorem storePieces (value : UInt32) : ∃ ram, MainRam.Patched pieces vaddr value m.bus.ram ram ∧
      (storePieces vaddr value pieces m).value = (.ok (), m.withRam ram) := by
  obtain ⟨ram, hpatched, hpieces⟩ := h.writePieces hp value
  refine ⟨ram, hpatched, ?_⟩
  simp only [Machine.storePieces]
  rw [exec_bind_ok (h.checkDataBreakpoint rfl),
    exec_bind_ok ((h.congr (Lane.base_base vaddr)).checkAccess (Width.word_aligned_base vaddr))]
  exact hpieces

end Pieces

end Accessible

structure Beside (m t : Machine γ δ) : Prop where
  cop0 : m.cpu.regs.cop0.Kept t.cpu.regs.cop0
  biu : t.cpu.caches.biu = m.cpu.caches.biu
  data : t.cpu.caches.data = m.cpu.caches.data
  rom : t.bus.rom = m.bus.rom

theorem Beside.trans (h : Beside m t) (k : Beside t u) : Beside m u :=
  ⟨h.cop0.trans k.cop0, k.biu.trans h.biu, k.data.trans h.data, k.rom.trans h.rom⟩

theorem Beside.accessible (h : Beside m t) (ha : m.Accessible access vaddr) : t.Accessible access vaddr :=
  ha.kept h.cop0 h.biu

/-- A step whose instruction has changed nothing but RAM. -/
theorem beside_of_completed {i : Instruction} (h : m.executing? = some i) {e : Effect} {ram : MainRam}
    (hp : (perform m.operands m.cpu.regs.pc i m.supplied).value = (.ok e, m.supplied.withRam ram)) :
    Beside m (m.after 1) ∧ (m.after 1).bus.ram = ram ∧ m.effect = e := by
  have hleft := left_of_completed h hp
  obtain ⟨hkept, -⟩ := m.supplied_kept
  refine ⟨⟨?_, ?_, ?_, hleft.rom.trans hkept.bus.rom⟩, hleft.ram, (attempt_completed h hp).2⟩
  · have hcop0 := m.cop0_supplied
    rwa [show m.supplied.cpu.regs.cop0 = _ from hleft.cop0.symm] at hcop0
  · exact (congrArg Caches.biu hleft.caches).trans hkept.biu
  · exact (congrArg Caches.data hleft.caches).trans hkept.data

/-- The next step executes a load or store of this kind, of a register, at this virtual address. -/
def Issues (op : ImmediateOp) (rt : Reg) (vaddr : UInt32) (m : Machine γ δ) : Prop :=
  ∃ f, m.executing? = some (.immediate op f) ∧ f.rt = rt ∧ m.operands.address f = vaddr

/-- The next two steps execute the halves of an unaligned access at `a`, in either order. -/
def Halves (right left : ImmediateOp) (rt : Reg) (a : UInt32) (m : Machine γ δ) : Prop :=
  m.Issues right rt a ∧ (m.after 1).Issues left rt (a + 3) ∨
    m.Issues left rt (a + 3) ∧ (m.after 1).Issues right rt a

section Half
variable {rt : Reg} {a : UInt32}

theorem Issues.loads {op : Load} (hop : op = .lwl ∨ op = .lwr) (h : m.Issues (.load op) rt vaddr)
    (ha : m.Accessible .load vaddr) : Beside m (m.after 1) ∧ (m.after 1).bus.ram = m.bus.ram ∧
      m.effect = .load rt (op.brings (m.operands.pending rt) vaddr (m.bus.ram.word (translate vaddr))) := by
  obtain ⟨f, hexec, rfl, rfl⟩ := h
  have hkept := m.supplied_kept.1
  have hload := (ha.kept m.cop0_supplied hkept.biu).load
  have hbrought : ∀ current, (brought op current (m.operands.address f) m.supplied).value =
      (.ok (op.brings current (m.operands.address f)
        (m.supplied.bus.ram.word (translate (m.operands.address f)))), m.supplied) := by
    intro current
    obtain rfl | rfl := hop <;> simp only [brought] <;> rw [exec_bind_ok hload] <;> rfl
  have hform : (formAddress m.operands f m.supplied).value = (.ok (m.operands.address f), m.supplied) := rfl
  have hp : (perform m.operands m.cpu.regs.pc (.immediate (.load op) f) m.supplied).value =
      (.ok (.load f.rt (op.brings (m.operands.pending f.rt) (m.operands.address f)
        (m.supplied.bus.ram.word (translate (m.operands.address f))))),
        m.supplied.withRam m.supplied.bus.ram) := by
    simp only [perform, performImmediate]
    rw [exec_bind_ok hform, exec_bind_ok (hbrought _)]
    rfl
  obtain ⟨hbeside, hram, heffect⟩ := beside_of_completed hexec hp
  rw [hkept.bus.ram] at hram heffect
  exact ⟨hbeside, hram, heffect⟩

theorem perform_store (op : Store) {o : Operands} {pc : UInt32} {f : Immediate} {ram : MainRam}
    (h : (executeStore op (o.address f) (o.gpr f.rt) t).value = (.ok (), t.withRam ram)) :
    (perform o pc (.immediate (.store op) f) t).value = (.ok .keep, t.withRam ram) := by
  have hform : (formAddress o f t).value = (.ok (o.address f), t) := rfl
  simp only [perform, performImmediate]
  rw [exec_bind_ok hform, exec_bind_ok h]
  rfl

theorem Issues.storesRight (h : m.Issues (.store .swr) rt a) (ha : m.Accessible .store a) :
    Beside m (m.after 1) ∧ MainRam.Stores (fun k => k + (Lane.of a).val < 4) a (m.cpu.regs.gpr rt)
      m.bus.ram (m.after 1).bus.ram := by
  obtain ⟨f, hexec, rfl, rfl⟩ := h
  have hkept := m.supplied_kept.1
  obtain ⟨ram, hpatched, hstore⟩ := (ha.kept m.cop0_supplied hkept.biu).storePieces
    (fun _ hp => List.mem_append_right _ hp)
    (m.operands.gpr f.rt <<< UInt32.ofNat (8 * Lane.of (m.operands.address f)))
  rw [← executeStore_swr] at hstore
  obtain ⟨hbeside, hram, -⟩ := beside_of_completed hexec (perform_store .swr hstore)
  rw [hkept.bus.ram] at hpatched
  exact ⟨hbeside, hram ▸ hpatched.right⟩

theorem Issues.storesLeft (h : m.Issues (.store .swl) rt (a + 3)) (ha : m.Accessible .store (a + 3)) :
    Beside m (m.after 1) ∧ MainRam.Stores (fun k => 3 ≤ k + (Lane.of (a + 3)).val) a (m.cpu.regs.gpr rt)
      m.bus.ram (m.after 1).bus.ram := by
  obtain ⟨f, hexec, rfl, haddr⟩ := h
  have hkept := m.supplied_kept.1
  rw [← haddr] at ha
  obtain ⟨ram, hpatched, hstore⟩ := (ha.kept m.cop0_supplied hkept.biu).storePieces
    (fun _ hp => List.mem_append_left _ hp)
    (m.operands.gpr f.rt >>> (24 - UInt32.ofNat (8 * Lane.of (m.operands.address f))))
  rw [← executeStore_swl] at hstore
  obtain ⟨hbeside, hram, -⟩ := beside_of_completed hexec (perform_store .swl hstore)
  rw [hkept.bus.ram, haddr] at hpatched
  exact ⟨hbeside, hram ▸ hpatched.left⟩

end Half

/-- The word at a virtual address has become `v`, and nothing else in memory has changed. -/
structure StoresWord (a v : UInt32) (m t : Machine γ δ) : Prop where
  ram : MainRam.Stores (fun _ => True) a v m.bus.ram t.bus.ram
  rom : t.bus.rom = m.bus.rom
  data : t.cpu.caches.data = m.cpu.caches.data

section Pair
variable {rt : Reg} {a : UInt32}

theorem Reachable.loads_pair (h : m.Reachable) (hrt : rt ≠ .zero) (hright : m.Accessible .load a)
    (hleft : m.Accessible .load (a + 3)) (hp : m.Halves (.load .lwr) (.load .lwl) rt a)
    (ht : (m.after 2).effect.target? ≠ some rt) {k : Nat} (hk : k < 4) :
    Word.byte ((m.after 3).cpu.regs.gpr rt) k = m.bus.ram.byte (ramOffset (a + UInt32.ofNat k)) := by
  rw [h.gpr_landed ht]
  obtain ⟨hfirst, hsecond⟩ | ⟨hfirst, hsecond⟩ := hp
  · obtain ⟨hbeside, hram, heffect⟩ := hfirst.loads (.inr rfl) hright
    obtain ⟨-, -, heffect'⟩ := hsecond.loads (.inl rfl) (hbeside.accessible hleft)
    rw [h.pending_issued heffect' hrt, h.pending_issued (k := 0) heffect hrt, hram]
    exact (MainRam.byte_merged hk _).1
  · obtain ⟨hbeside, hram, heffect⟩ := hfirst.loads (.inl rfl) hleft
    obtain ⟨-, -, heffect'⟩ := hsecond.loads (.inr rfl) (hbeside.accessible hright)
    rw [h.pending_issued heffect' hrt, h.pending_issued (k := 0) heffect hrt, hram]
    exact (MainRam.byte_merged hk _).2

theorem stores_pair {v : UInt32} (hright : m.Accessible .store a) (hleft : m.Accessible .store (a + 3))
    (hp : m.Halves (.store .swr) (.store .swl) rt a) (hv : m.cpu.regs.gpr rt = v)
    (hv' : (m.after 1).cpu.regs.gpr rt = v) : Beside m (m.after 2) ∧ StoresWord a v m (m.after 2) := by
  have hafter : m.after 2 = (m.after 1).after 1 := m.after_add 1 1
  rw [hafter]
  obtain ⟨hfirst, hsecond⟩ | ⟨hfirst, hsecond⟩ := hp
  · obtain ⟨hbeside, hstores⟩ := hfirst.storesRight hright
    obtain ⟨hbeside', hstores'⟩ := hsecond.storesLeft (hbeside.accessible hleft)
    rw [hv] at hstores
    rw [hv'] at hstores'
    have hall := hbeside.trans hbeside'
    exact ⟨hall, (hstores.trans hstores').all fun k _ => halves a k, hall.rom, hall.data⟩
  · obtain ⟨hbeside, hstores⟩ := hfirst.storesLeft hleft
    obtain ⟨hbeside', hstores'⟩ := hsecond.storesRight (hbeside.accessible hright)
    rw [hv] at hstores
    rw [hv'] at hstores'
    have hall := hbeside.trans hbeside'
    exact ⟨hall, (hstores.trans hstores').all fun k _ => (halves a k).symm, hall.rom, hall.data⟩

end Pair

/-- Two loads of halves leave in their register the four bytes at an address, once the step after them has
left the register alone. Two stores of halves write the value of their register there, and nothing else;
so that loads which follow bring it back. -/
theorem Reachable.joins_halves (h : m.Reachable) (a : UInt32) :
    (∀ rt ≠ .zero, m.Accessible .load a → m.Accessible .load (a + 3) →
      m.Halves (.load .lwr) (.load .lwl) rt a → (m.after 2).effect.target? ≠ some rt →
      ∀ k < 4, Word.byte ((m.after 3).cpu.regs.gpr rt) k =
        m.bus.ram.byte (ramOffset (a + UInt32.ofNat k))) ∧
    (∀ rt v, m.Accessible .store a → m.Accessible .store (a + 3) →
      m.Halves (.store .swr) (.store .swl) rt a →
      m.cpu.regs.gpr rt = v → (m.after 1).cpu.regs.gpr rt = v → StoresWord a v m (m.after 2)) ∧
    ∀ rs rt v, (∀ access ∈ [.load, .store], m.Accessible access a ∧ m.Accessible access (a + 3)) →
      m.Halves (.store .swr) (.store .swl) rs a →
      m.cpu.regs.gpr rs = v → (m.after 1).cpu.regs.gpr rs = v →
      rt ≠ .zero → (m.after 2).Halves (.load .lwr) (.load .lwl) rt a →
      (m.after 4).effect.target? ≠ some rt → (m.after 5).cpu.regs.gpr rt = v := by
  refine ⟨fun rt hrt hright hleft hp ht k hk => h.loads_pair hrt hright hleft hp ht hk,
    fun rt v hright hleft hp hv hv' => (stores_pair hright hleft hp hv hv').2, ?_⟩
  intro rs rt v haccess hstores hv hv' hrt hloads ht
  obtain ⟨hright, hleft⟩ := haccess .store (by decide)
  obtain ⟨hbeside, hword⟩ := stores_pair hright hleft hstores hv hv'
  obtain ⟨hright', hleft'⟩ := haccess .load (by decide)
  apply Word.eq_of_byte
  intro k hk
  rw [m.after_add 2 2] at ht
  rw [m.after_add 2 3, (h.after 2).loads_pair hrt (hbeside.accessible hright')
    (hbeside.accessible hleft') hloads ht hk]
  exact hword.ram.stored k hk trivial

/-- Before a word is stored to an unaligned address, and loaded from there. -/
def straddling : Machine Gte.Registers Unit :=
  (booting [0x3c091234, 0x35295678, 0x34080101, 0xb9090000, 0xa9090003, 0x890a0003, 0x990a0000, 0]
    (by decide)).steps 3

/-- All of RAM can be accessed in kernel mode where nothing is isolated, cached as data or watched. -/
theorem Accessible.of_kernel (hram : translate vaddr < ramWindowEnd)
    (h : m.cpu.regs.cop0.status.kuC = false ∧ m.cpu.regs.cop0.status.isc = false ∧
      m.cpu.caches.biu.dataCache = false ∧ m.cpu.regs.cop0.watches access = false) :
    m.Accessible access vaddr := by
  obtain ⟨hkernel, hisc, hcache, hwatches⟩ := h
  refine ⟨hram, fun _ => ne_true_of_eq_false hkernel, hisc, hcache, fun a _ => ?_⟩
  simp only [Cop0.catches]
  rw [hwatches]
  rfl

set_option maxRecDepth 10000 in
theorem joins_halves_straddling : straddling.Reachable ∧
    StoresWord 0x101 0x12345678 straddling (straddling.after 2) ∧
    (straddling.after 5).cpu.regs.gpr 10 = 0x12345678 ∧
    ∀ k < 4, Word.byte (((straddling.after 2).after 3).cpu.regs.gpr 10) k =
      (straddling.after 2).bus.ram.byte (ramOffset (0x101 + UInt32.ofNat k)) := by
  have hreach : straddling.Reachable := (reachable_booting _ _).steps 3
  have hstores : straddling.Halves (.store .swr) (.store .swl) 9 0x101 :=
    .inl ⟨⟨⟨8, 9, 0⟩, by decide +kernel, rfl, by decide +kernel⟩,
      ⟨8, 9, 3⟩, by decide +kernel, rfl, by decide +kernel⟩
  have hloads : (straddling.after 2).Halves (.load .lwr) (.load .lwl) 10 0x101 :=
    .inr ⟨⟨⟨8, 10, 3⟩, by decide +kernel, rfl, by decide +kernel⟩,
      ⟨8, 10, 0⟩, by decide +kernel, rfl, by decide +kernel⟩
  have haccess : ∀ access ∈ [Access.load, .store],
      straddling.Accessible access 0x101 ∧ straddling.Accessible access 0x104 := by
    simp only [List.forall_mem_cons]
    exact ⟨⟨.of_kernel (by decide) (by decide +kernel), .of_kernel (by decide) (by decide +kernel)⟩,
      ⟨.of_kernel (by decide) (by decide +kernel), .of_kernel (by decide) (by decide +kernel)⟩, nofun⟩
  have hright : (straddling.after 2).Accessible .load 0x101 := .of_kernel (by decide) (by decide +kernel)
  have hleft : (straddling.after 2).Accessible .load 0x104 := .of_kernel (by decide) (by decide +kernel)
  have hvalue : straddling.cpu.regs.gpr 9 = 0x12345678 := by decide +kernel
  have hvalue' : (straddling.after 1).cpu.regs.gpr 9 = 0x12345678 := by decide +kernel
  have htarget : (straddling.after 4).effect.target? ≠ some 10 := by decide +kernel
  have h := hreach.joins_halves 0x101
  obtain ⟨hright', hleft'⟩ := haccess .store (by decide)
  exact ⟨hreach, h.2.1 9 _ hright' hleft' hstores hvalue hvalue',
    h.2.2 9 10 _ haccess hstores hvalue hvalue' (by decide) hloads htarget,
    ((hreach.after 2).joins_halves 0x101).1 10 (by decide) hright hleft hloads htarget⟩

end Machine
end R3000
