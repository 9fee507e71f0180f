import R3000.Proofs.InterruptLine
import R3000.Proofs.PartialStores

/-! # The registers of the interrupt controller

A store to a register of the interrupt controller is told which bits of its word it reaches. In the register of
the pending sources it takes down those that it writes as zero while they are enabled, and in that of the
enabled ones it replaces what it reaches. The parts of a store add up, and a store that is repeated has
nothing left to do. -/
namespace R3000

namespace Interrupt

inductive Register
  | pending
  | enabled
deriving DecidableEq

namespace Register

def index : Register → Nat
  | .pending => 0
  | .enabled => 1

def address : Register → UInt32
  | .pending => 0x1f801070
  | .enabled => 0x1f801074

end Register

namespace Controller

/-- What a write to a register leaves that reaches some bits, and has these values for them. -/
structure Written (reg : Register) (reached value : Nat → Bool) (c d : Controller) : Prop where
  /-- A source is pending if it was, and has not been acknowledged. -/
  pending : ∀ k < 32, Word.bit d.pending k ↔ Word.bit c.pending k ∧
    ¬(reg = .pending ∧ reached k ∧ value k = false ∧ Word.bit c.enabled k)
  enabled : ∀ k < 32, Word.bit d.enabled k =
    if reg = .enabled ∧ reached k then value k else Word.bit c.enabled k
  line : d.Shown

variable {reg : Register} {reached value reached' value' : Nat → Bool} {c d e : Controller}

theorem written_write (reg : Register) (value access : UInt32) (c : Controller) :
    Written reg (Word.bit access) (Word.bit value) c (c.write reg.index value access).value := by
  have hline := shown_write c reg.index value access
  cases reg with
  | pending =>
    have hvalue : (c.write 0 value access).value = (c.acknowledge value access).refresh.value := rfl
    refine ⟨fun k hk => ?_, fun k _ => ?_, hline⟩
    · simp only [Register.index, hvalue, value_refresh, acknowledge, Word.bit_or, Word.bit_and,
        Word.bit_not _ hk]
      cases Word.bit c.pending k <;> cases Word.bit access k <;> cases Word.bit value k <;> simp
    · simp [Register.index, hvalue, value_refresh, acknowledge]
  | enabled =>
    have hvalue : (c.write 1 value access).value = (c.enable value access).refresh.value := by
      simp only [write]
      split <;> rfl
    refine ⟨fun k hk => ?_, fun k hk => ?_, hline⟩
    · simp [Register.index, hvalue, value_refresh, enable]
    · simp only [Register.index, hvalue, value_refresh, enable, Word.bit_or, Word.bit_and,
        Word.bit_not _ hk]
      cases Word.bit access k <;> simp

/-- The other registers do not hold pending sources. -/
theorem pending_write {index : Nat} (h : index ≠ 0) (value access : UInt32) (c : Controller) :
    (c.write index value access).value.pending = c.pending := by
  unfold write
  split
  · exact absurd rfl h
  · dsimp only
    split <;> simp [value_refresh, enable]
  · simp [value_refresh]

namespace Written

theorem congr (h : Written reg reached value c d) (hr : ∀ k < 32, reached k = reached' k)
    (hv : ∀ k < 32, reached k → value k = value' k) : Written reg reached' value' c d := by
  refine ⟨fun k hk => ?_, fun k hk => ?_, h.line⟩
  · rw [h.pending k hk, ← hr k hk]
    cases hk' : reached k with
    | false => simp
    | true => rw [hv k hk hk']
  · rw [h.enabled k hk, ← hr k hk]
    cases hk' : reached k with
    | false => simp
    | true => rw [hv k hk hk']

/-- Parts of one value that are written one after the other. -/
theorem trans (h : Written reg reached value c d) (g : Written reg reached' value d e) :
    Written reg (fun k => reached k || reached' k) value c e := by
  refine ⟨fun k hk => ?_, fun k hk => ?_, g.line⟩
  · rw [g.pending k hk, h.pending k hk, h.enabled k hk]
    cases reg <;> cases reached k <;> cases reached' k <;> cases value k <;> simp
  · rw [g.enabled k hk, h.enabled k hk]
    cases reg <;> cases reached k <;> cases reached' k <;> simp

/-- To write the same once more changes nothing. -/
theorem again (h : Written reg reached value c d) (g : Written reg reached value d e) : e = d := by
  have hpending : e.pending = d.pending := Word.eq_of_bit fun k hk => by
    rw [Bool.eq_iff_iff, g.pending k hk, h.pending k hk, h.enabled k hk]
    cases reg <;> cases reached k <;> cases value k <;> simp
  have henabled : e.enabled = d.enabled := Word.eq_of_bit fun k hk => by
    rw [g.enabled k hk, h.enabled k hk]
    split <;> rfl
  have hline : e.line = d.line := by
    rw [g.line, h.line]
    simp only [asserted]
    rw [hpending, henabled]
  cases d
  cases e
  cases hpending
  cases henabled
  cases hline
  rfl

end Written

theorem raise_raise (c : Controller) (sources : UInt32) :
    ((c.raise sources).value.raise sources).value = (c.raise sources).value := by
  simp only [value_raise]
  rw [UInt32.or_assoc, UInt32.or_self]

theorem bit_raise (c : Controller) (sources : UInt32) (k : Nat) :
    Word.bit (c.raise sources).value.pending k = (Word.bit c.pending k || Word.bit sources k) := by
  rw [value_raise, Word.bit_or]

end Controller
end Interrupt

namespace Bus
variable {δ : Type} {reg : Interrupt.Register} {w : Write} {ws : List Write} {byte : Nat → UInt8}

/-- The value that the bits of a word have where its lanes hold these bytes. -/
def bitOf (byte : Nat → UInt8) (k : Nat) : Bool := (byte (k / 8)).toNat.testBit (k % 8)

theorem eq_base_add (addr : UInt32) : addr = Lane.base addr + UInt32.ofNat (Lane.of addr) := by
  rw [← UInt32.toNat_inj, toNat_add_ofNat _ (Lane.of addr).isLt, Lane.toNat_base]
  have hlt := addr.toNat_lt
  simp only [Lane.of]
  omega

/-- The bus finds the register behind each byte of its word. -/
theorem register_of_base {addr : UInt32} (h : Lane.base addr = reg.address) :
    Region.of addr = .io (addr - ioBase) ∧
      Group.of? (addr - ioBase) = some (.interrupt reg.index) := by
  have hbyte : ∀ reg : Interrupt.Register, ∀ l : Fin 4,
      Region.of (reg.address + UInt32.ofNat l) = .io (reg.address + UInt32.ofNat l - ioBase) ∧
        Group.of? (reg.address + UInt32.ofNat l - ioBase) = some (.interrupt reg.index) := by
    intro reg
    cases reg <;> decide
  rw [eq_base_add addr, h]
  exact hbyte reg _

/-- An offset into the I/O window has the lane of its address. -/
theorem lane_offset (addr : UInt32) : Lane.of (addr - ioBase) = Lane.of addr := by
  apply Fin.ext
  have hbase : ioBase.toNat = 0x1f801000 := rfl
  simp only [Lane.of]
  rw [UInt32.toNat_sub, hbase]
  omega

theorem aligned_offset {addr : UInt32} {w : Width} (h : w.aligned addr) : w.aligned (addr - ioBase) := by
  have hbase : w.aligned ioBase := by cases w <;> decide
  exact Width.aligned_sub h hbase

/-- Shifted to its lane the value of a write has the bytes that it carries, where the mask covers them. -/
theorem bit_shifted {offset : UInt32} (h : w.width.aligned offset) (hl : Lane.of offset = Lane.of w.addr)
    {k : Nat} (hk : k < 32) : Word.bit (Lane.mask offset w.width) k = w.covers (k / 8) ∧
      (w.covers (k / 8) → Word.bit (w.value <<< Lane.shift offset w.width) k = bitOf w.byte k) := by
  have hmask : Word.bit (Lane.mask offset w.width) k = w.covers (k / 8) := by
    rw [Lane.bit_mask h hk, hl, Write.covers, ← Bool.decide_and]
    exact decide_eq_decide.mpr (by omega)
  refine ⟨hmask, fun hcovers => ?_⟩
  rw [← hmask, Lane.bit_mask h hk, hl, decide_eq_true_eq] at hcovers
  have hindex : 8 * (k / 8 - (Lane.of w.addr).val) + k % 8 = k - 8 * (Lane.of w.addr).val := by omega
  have hlow : k % 8 < 8 := by omega
  rw [Lane.shift_eq h, hl, Word.bit_shiftLeft _ (by omega) hk, bitOf, Write.byte,
    Word.testBit_byte _ (by omega), hindex]
  simp [hcovers.1, hlow]

theorem write_register (h : w.width.aligned w.addr) (hr : Lane.base w.addr = reg.address) (b : Bus δ) :
    ∃ d, (write w.addr w.value w.width b).value = (.ok (), { b with int := d }) ∧
      b.int.Written reg (fun k => w.covers (k / 8)) (bitOf w.byte) d := by
  obtain ⟨hregion, hgroup⟩ := register_of_base hr
  have hbit {k : Nat} (hk : k < 32) := bit_shifted (aligned_offset h) (lane_offset w.addr) hk
  refine ⟨_, ?_, (Interrupt.Controller.written_write reg (w.value <<< Lane.shift (w.addr - ioBase) w.width)
    (Lane.mask (w.addr - ioBase) w.width) b.int).congr (fun k hk => (hbit hk).1) fun k hk hreached => ?_⟩
  · unfold write
    rw [hregion]
    dsimp only
    simp only [ioWrite]
    rw [hgroup]
    rfl
  · exact (hbit hk).2 ((hbit hk).1 ▸ hreached)

theorem writes_register (ha : ∀ w ∈ ws, w.width.aligned w.addr) (hr : ∀ w ∈ ws, Lane.base w.addr = reg.address)
    (hc : ∀ w ∈ ws, ∀ d < 4, w.covers d → w.byte d = byte d) (hne : ws ≠ []) (b : Bus δ) :
    ∃ d, (writes ws b).value = (.ok (), { b with int := d }) ∧
      b.int.Written reg (fun k => ws.any (·.covers (k / 8))) (bitOf byte) d := by
  induction ws generalizing b with
  | nil => exact absurd rfl hne
  | cons w ws ih =>
    rw [List.forall_mem_cons] at ha hr hc
    obtain ⟨d, hvalue, hwritten⟩ := write_register ha.1 hr.1 b
    have hfirst : b.int.Written reg (fun k => w.covers (k / 8)) (bitOf byte) d :=
      hwritten.congr (fun _ _ => rfl) fun k hk hcovers => by
        rw [bitOf, bitOf, hc.1 (k / 8) (by omega) hcovers]
    rw [writes_cons_ok hvalue]
    -- a single write has to be told apart, as no writes at all leave the line as it is
    cases ws with
    | nil =>
      refine ⟨d, rfl, hfirst.congr (fun k _ => ?_) fun _ _ _ => rfl⟩
      simp
    | cons v ws =>
      obtain ⟨e, hrest, hlater⟩ := ih ha.2 hr.2 hc.2 (List.cons_ne_nil v ws) { b with int := d }
      refine ⟨e, hrest, (hfirst.trans hlater).congr (fun k _ => ?_) fun _ _ _ => rfl⟩
      simp

end Bus

namespace Store

def reaches (op : Store) (vaddr : UInt32) (k : Nat) : Bool := op.covers (Lane.of vaddr) (k / 8)

def bit (op : Store) (vaddr value : UInt32) (k : Nat) : Bool :=
  Bus.bitOf (op.byte (Lane.of vaddr) value) k

theorem writes_register {δ : Type} {op : Store} {vaddr : UInt32} {reg : Interrupt.Register}
    (ha : op.aligned vaddr) (hr : Lane.base (translate vaddr) = reg.address) (value : UInt32) (b : Bus δ) :
    ∃ d, (Bus.writes (op.writes vaddr value) b).value = (.ok (), { b with int := d }) ∧
      b.int.Written reg (op.reaches vaddr) (op.bit vaddr value) d := by
  have hspread := spread ha value
  have hne : op.writes vaddr value ≠ [] := by
    have hlength := op.length_writes vaddr value
    intro h
    rw [h] at hlength
    split at hlength <;> cases hlength
  obtain ⟨d, hvalue, hwritten⟩ := Bus.writes_register hspread.aligned
    (fun w hw => (hspread.within w hw).trans hr) hspread.carried hne b
  exact ⟨d, hvalue, hwritten.congr (fun k hk => hspread.any_covers (by omega)) fun _ _ _ => rfl⟩

end Store

namespace Machine
variable {γ δ α β : Type} {m t : Machine γ δ} {op : Store} {vaddr value : UInt32} {reg : Interrupt.Register}
  {reached bits : Nat → Bool}

/-- The computation writes bits of a register, or else it raises an exception and leaves the bus alone. -/
structure WritesRegister (reg : Interrupt.Register) (reached bits : Nat → Bool) (x : Exec γ δ α)
    (m : Machine γ δ) : Prop where
  refused : ∀ e t, (x m).value = (.error e, t) → t.bus = m.bus
  written : ∀ a t, (x m).value = (.ok a, t) →
    ∃ d, t.bus = { m.bus with int := d } ∧ m.bus.int.Written reg reached bits d

namespace WritesRegister
variable {x : Exec γ δ α} {f : α → Exec γ δ β}

/-- Other work may go before. -/
theorem after (hx : Moves inward x m)
    (hf : ∀ a t, (x m).value = (.ok a, t) → WritesRegister reg reached bits (f a) t) :
    WritesRegister reg reached bits (x >>= f) m := by
  cases hv : (x m).value with
  | mk r t =>
    have hbus : t.bus = m.bus := (hx.holds hv).bus
    cases r with
    | error e =>
      refine ⟨fun e u hu => ?_, fun b u hu => ?_⟩ <;> rw [exec_bind_error hv] at hu <;> cases hu
      exact hbus
    | ok a =>
      have hrest := hf a t hv
      refine ⟨fun e u hu => ?_, fun b u hu => ?_⟩ <;> rw [exec_bind_ok hv] at hu <;> rw [← hbus]
      · exact hrest.refused e u hu
      · exact hrest.written b u hu

theorem before (hx : WritesRegister reg reached bits x m) (b : β) :
    WritesRegister reg reached bits (x >>= fun _ => pure b : Exec γ δ β) m := by
  cases hv : (x m).value with
  | mk r t =>
    cases r with
    | error e =>
      refine ⟨fun e u hu => ?_, fun b u hu => ?_⟩ <;> rw [exec_bind_error hv] at hu <;> cases hu
      exact hx.refused _ _ hv
    | ok a =>
      refine ⟨fun e u hu => ?_, fun b u hu => ?_⟩ <;> rw [exec_bind_ok hv] at hu <;> cases hu
      exact hx.written _ _ hv

theorem of_conducts {ws : List Bus.Write} {d : Interrupt.Controller} (h : Conducts ws x m)
    (hw : (Bus.writes ws m.bus).value = (.ok (), { m.bus with int := d }))
    (hd : m.bus.int.Written reg reached bits d) : WritesRegister reg reached bits x m := by
  refine ⟨fun e t hx => ?_, fun a t hx => ⟨d, ?_, hd⟩⟩
  · obtain ⟨e', he⟩ := h.of_error hx
    rw [hw] at he
    cases he
  · have hok := h.of_ok hx
    rw [hw] at hok
    exact (congrArg Prod.snd hok).symm

/-- What is done once more changes nothing on the bus. -/
theorem again (hx : WritesRegister reg reached bits x m) {a : α} (h : (x m).value = (.ok a, t))
    (hy : WritesRegister reg reached bits x t) : (x t).value.2.bus = t.bus := by
  obtain ⟨d, ht, hd⟩ := hx.written a t h
  cases hv : (x t).value with
  | mk r u =>
    cases r with
    | error e => exact hy.refused e u hv
    | ok b =>
      obtain ⟨e, hu, he⟩ := hy.written b u hv
      rw [ht] at hu he
      rw [hu, ht, hd.again he]

end WritesRegister

/-- There is nothing in front of the registers. -/
theorem Outbound.of_register (hr : Lane.base (translate vaddr) = reg.address)
    (hisc : m.cpu.regs.cop0.status.isc = false) : m.Outbound vaddr := by
  have hplace : ∀ reg : Interrupt.Register,
      Segment.of reg.address ≠ .kseg2 ∧ DataArray.covers reg.address = false := by
    intro reg
    cases reg <;> decide
  obtain ⟨hsegment, hcovers⟩ := hplace reg
  refine ⟨fun hs => hsegment ?_, hisc, ?_⟩
  · have hphysical : translate vaddr = vaddr := by
      simp only [translate]
      rw [hs]
    rw [← hr, hphysical, Segment.of_base, hs]
  · rw [← DataArray.covers_base, hr, hcovers, Bool.and_false, Bool.false_and]

section Store
variable (hr : Lane.base (translate vaddr) = reg.address) (hisc : m.cpu.regs.cop0.status.isc = false)
include hr hisc

/-- A store whose checks have passed writes what it reaches. -/
theorem issue_register {a : Unit} (h : (checkStore op vaddr m).value = (.ok a, t)) (value : UInt32) :
    Conducts (op.writes vaddr value) (issue op vaddr value) t ∧
      ∃ d, (Bus.writes (op.writes vaddr value) t.bus).value = (.ok (), { t.bus with int := d }) ∧
        t.bus.int.Written reg (op.reaches vaddr) (op.bit vaddr value) d := by
  have hinward : Inward m _ t := (checkStore_inward op vaddr).holds h
  have hout := (Outbound.of_register hr hisc).of_modes hinward.status (congrArg Caches.biu hinward.caches)
  exact ⟨.issue hout op value, Store.writes_register (aligned_of_checkStore h) hr value t.bus⟩

theorem executeStore_register (op : Store) (value : UInt32) :
    WritesRegister reg (op.reaches vaddr) (op.bit vaddr value) (executeStore op vaddr value) m := by
  rw [executeStore_eq]
  refine .after (checkStore_inward op vaddr) fun _ t ht => ?_
  obtain ⟨hconducts, d, hwrites, hwritten⟩ := issue_register hr hisc ht value
  exact .of_conducts hconducts hwrites hwritten

/-- Nothing but its checks refuses it. -/
theorem executeStore_result (op : Store) (value : UInt32) :
    (executeStore op vaddr value m).value.1 = (checkStore op vaddr m).value.1 := by
  rw [executeStore_eq]
  cases hv : (checkStore op vaddr m).value with
  | mk r t =>
    cases r with
    | error e => rw [exec_bind_error hv]
    | ok a =>
      obtain ⟨hconducts, d, hwrites, -⟩ := issue_register hr hisc hv value
      have hends := hconducts.ends
      rw [hwrites] at hends
      rw [exec_bind_ok hv]
      cases hi : (issue op vaddr value t).value.1 with
      | ok b => rfl
      | error e =>
        rw [hi] at hends
        cases hends

/-- A store that is repeated changes nothing. -/
theorem executeStore_again {a : Unit} (h : (executeStore op vaddr value m).value = (.ok a, t)) :
    (executeStore op vaddr value t).value.2.bus = t.bus := by
  have hstatus : t.cpu.regs.cop0.status.isc = false := by
    have hstore : Restrained behindKuseg (executeStore op vaddr value) m :=
      (Restrained.closed behindKuseg).beside.executeStore (fun v _ => admits_behindKuseg v) value
    rw [(hstore.kept h).1.status, hisc]
  exact (executeStore_register hr hisc op value).again h (executeStore_register hr hstatus op value)

end Store

end Machine
end R3000
