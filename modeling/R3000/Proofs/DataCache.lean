import R3000.Proofs.CachedWords
import R3000.Proofs.OperandClosure
import R3000.Proofs.Reachability

/-! # The data cache does not show

Loads and stores of main RAM do the same whether the data array caches it or is disabled, as long as no
store goes to an image of a word that is cached by another address. -/
namespace R3000

namespace Machine
variable {γ δ α β : Type} {m t : Machine γ δ}

def withArray (m : Machine γ δ) (d : DataArray) (b : Biu) : Machine γ δ :=
  { m with cpu := { m.cpu with caches := { m.cpu.caches with data := d, biu := b } } }

theorem uncaching_withArray {b : Biu} (hb : b.ds = false) (d : DataArray) :
    ¬(m.withArray d b).cpu.caches.biu.dataCache := by simp [withArray, Biu.dataCache, hb]

def written (m : Machine γ δ) (addr value : UInt32) (w : Width) : Machine γ δ :=
  { m with
    cpu := { m.cpu with
      caches := { m.cpu.caches with data := m.cpu.caches.data.writeThrough addr value w } }
    bus := { m.bus with ram := m.bus.ram.write (addr.toNat % ramSize) value w } }

/-- The data array caches main RAM, and is up to date. -/
structure Caching (m : Machine γ δ) : Prop where
  biu : m.cpu.caches.biu.dataCache
  unisolated : m.cpu.regs.cop0.status.isc = false
  mirrors : m.cpu.caches.data.Mirrors m.bus.ram

/-- Where RAM is cached, the computation keeps the copies up to date, and does the same with the data
array disabled. -/
def Transparent (x : Exec γ δ α) (m : Machine γ δ) : Prop :=
  m.Caching → (x m).value.2.Caching ∧ ∀ d b, b.ds = false →
    (x (m.withArray d b)).value = ((x m).value.1, (x m).value.2.withArray d b)

namespace Transparent

theorem pure (a : α) : Transparent (Pure.pure a) m := fun hm => ⟨hm, fun _ _ _ => rfl⟩

theorem throw (e : Exception) : Transparent (MonadExcept.throw e : Exec γ δ α) m := fun hm =>
  ⟨hm, fun _ _ _ => rfl⟩

theorem lift (x : Reported α) : Transparent (liftM x) m := fun hm => ⟨hm, fun _ _ _ => rfl⟩

theorem bind {x : Exec γ δ α} {f : α → Exec γ δ β} (hx : Transparent x m)
    (hf : ∀ a t, (x m).value = (.ok a, t) → Transparent (f a) t) : Transparent (x >>= f) m := by
  intro hm
  obtain ⟨hcaching, hsame⟩ := hx hm
  cases hv : (x m).value with
  | mk r t =>
    rw [hv] at hcaching hsame
    cases r with
    | error e =>
      rw [exec_bind_error hv]
      refine ⟨hcaching, fun d b hb => ?_⟩
      rw [exec_bind_error (hsame d b hb)]
    | ok a =>
      obtain ⟨hcaching', hsame'⟩ := hf a t hv hcaching
      rw [exec_bind_ok hv]
      refine ⟨hcaching', fun d b hb => ?_⟩
      rw [exec_bind_ok (hsame d b hb)]
      exact hsame' d b hb

theorem note_bind {n : Notice} {f : Unit → Exec γ δ β} (hf : Transparent (f ()) m) :
    Transparent (liftM (note n) >>= f) m := by
  refine bind (lift _) fun a t ht => ?_
  cases ht
  exact hf

/-- The result is the same, and so is all but the data array. -/
theorem of_value {x : Exec γ δ α}
    (hx : m.Caching → ∃ r, ∃ t : Machine γ δ, (x m).value = (r, t) ∧ t.Caching ∧
      ∀ d b, b.ds = false → (x (m.withArray d b)).value = (r, t.withArray d b)) :
    Transparent x m := by
  intro hm
  obtain ⟨r, t, hv, hcaching, hsame⟩ := hx hm
  rw [hv]
  exact ⟨hcaching, hsame⟩

theorem get_bind {f : Machine γ δ → Exec γ δ β} (hk : ∀ d b, f (m.withArray d b) = f m)
    (hf : Transparent (f m) m) : Transparent (get >>= f) m := by
  intro hm
  obtain ⟨hcaching, hsame⟩ := hf hm
  refine ⟨hcaching, fun d b hb => ?_⟩
  show (f (m.withArray d b) (m.withArray d b)).value = _
  rw [hk]
  exact hsame d b hb

theorem checkDataBreakpoint (access : Access) (vaddr : UInt32) :
    Transparent (checkDataBreakpoint access vaddr) m := by
  have hrecord : Transparent (modifyCop0 (·.record (Cop0.dataHit access))) m := fun hm =>
    ⟨⟨hm.biu, hm.unisolated, hm.mirrors⟩, fun _ _ _ => rfl⟩
  refine get_bind (fun _ _ => rfl) ?_
  dsimp only
  split
  · refine bind hrecord fun _ _ _ => note_bind ?_
    split
    · exact throw _
    · exact pure _
  · exact pure _

theorem checkAccess (access : Access) (vaddr : UInt32) (w : Width) :
    Transparent (checkAccess access vaddr w) m := by
  have hprivilege : ∀ (c : Prop) [Decidable c] (n : Notice) (e : Exception),
      Transparent (if c then do note n; MonadExcept.throw e else Pure.pure ()) m := by
    intro c _ n e
    split
    · exact note_bind (throw e)
    · exact pure ()
  unfold Machine.checkAccess
  split
  · exact note_bind (bind (throw _) fun _ _ ht => by cases ht)
  · exact get_bind (fun _ _ => rfl) (hprivilege _ _ _)

end Transparent

section Ram
variable {addr : UInt32} (h : addr < ramWindowEnd) {vaddr : UInt32} (w : Width)
include h

theorem busRead_ram (access : Access) :
    (busRead access vaddr addr w m).value = (.ok (m.bus.ram.read (addr.toNat % ramSize) w), m) := by
  have hr : Bus.Region.of addr = .ram (addr.toNat % ramSize) := if_pos h
  unfold busRead Bus.read
  rw [hr]
  rfl

theorem busWrite_ram (value : UInt32) :
    (((do answer .store vaddr (← plain (onBus (Bus.write addr value w)))) : Exec γ δ Unit) m).value =
      (.ok (), { m with
        bus := { m.bus with ram := m.bus.ram.write (addr.toNat % ramSize) value w } }) := by
  have hr : Bus.Region.of addr = .ram (addr.toNat % ramSize) := if_pos h
  unfold Bus.write
  rw [hr]
  rfl

end Ram

/-- The scratchpad lies above RAM. -/
theorem covers_ram {addr : UInt32} (h : addr < ramWindowEnd) : DataArray.covers addr = false := by
  have hlt : addr.toNat < 0x800000 := UInt32.lt_iff_toNat_lt.mp h
  have hle : ¬DataArray.base ≤ addr := by
    rw [UInt32.le_iff_toNat_le]
    simp only [DataArray.base, UInt32.reduceToNat]
    omega
  simp [DataArray.covers, hle]

/-- An access that the data array caches where it is enabled. -/
def Cacheable (vaddr : UInt32) : Prop := (Segment.of vaddr).cached ∧ translate vaddr < ramWindowEnd

instance {vaddr : UInt32} : Decidable (Cacheable vaddr) := inferInstanceAs (Decidable (_ ∧ _))

theorem Cacheable.not_kseg2 {vaddr : UInt32} (h : Cacheable vaddr) : Segment.of vaddr ≠ .kseg2 := by
  intro hs
  simpa [hs, Segment.cached] using h.1

theorem Cacheable.not_scratchpad {vaddr : UInt32} (h : Cacheable vaddr) (b : Biu) :
    ¬((Segment.of vaddr).cached && DataArray.covers (translate vaddr) && b.scratchpad) := by
  simp [covers_ram h.2]

theorem Cacheable.through {vaddr : UInt32} (h : Cacheable vaddr) (b : Biu) :
    ((Segment.of vaddr).cached && b.dataCache && decide (translate vaddr < ramWindowEnd)) =
      b.dataCache := by
  simp [h.1, h.2]

/-- Of the ways that an access can go, one is left: the data array where it is enabled, else the bus. -/
theorem Cacheable.route {vaddr : UInt32} (h : Cacheable vaddr)
    (hisc : m.cpu.regs.cop0.status.isc = false)
    {biu isolated scratchpad cached bus : Exec γ δ α} :
    (if Segment.of vaddr = .kseg2 then biu
      else if m.cpu.regs.cop0.status.isc then isolated
      else if (Segment.of vaddr).cached && DataArray.covers (translate vaddr) &&
        m.cpu.caches.biu.scratchpad then scratchpad
      else if (Segment.of vaddr).cached && m.cpu.caches.biu.dataCache &&
        decide (translate vaddr < ramWindowEnd) then cached
      else bus) = if m.cpu.caches.biu.dataCache then cached else bus := by
  rw [if_neg h.not_kseg2, hisc, if_neg Bool.false_ne_true, if_neg (h.not_scratchpad _), h.through]

theorem Cacheable.congr {vaddr v : UInt32} (h : Cacheable vaddr) (hb : Lane.base v = Lane.base vaddr) :
    Cacheable v := by
  refine ⟨?_, (Lane.base_lt rfl).mp ?_⟩
  · rw [← Segment.of_base, hb, Segment.of_base]
    exact h.1
  · rw [← translate_base, hb, translate_base]
    exact (Lane.base_lt rfl).mpr h.2

theorem Cacheable.base {vaddr : UInt32} (h : Cacheable vaddr) : Cacheable (Lane.base vaddr) :=
  h.congr (Lane.base_base vaddr)

theorem caches_checkDataBreakpoint (access : Access) (vaddr : UInt32) :
    (checkDataBreakpoint access vaddr m).value.2.cpu.caches = m.cpu.caches := by
  show ((if m.cpu.regs.cop0.catches access vaddr then _ else _ : Exec γ δ Unit) m).value.2.cpu.caches = _
  split
  · show ((if m.cpu.regs.cop0.dcic.tr then _ else _ : Exec γ δ Unit) _).value.2.cpu.caches = _
    split <;> rfl
  · rfl

theorem caches_checked {access : Access} {vaddr base : UInt32} {w : Width} {a b : Unit} {u : Machine γ δ}
    (ht : (checkDataBreakpoint access vaddr m).value = (.ok a, t))
    (hu : (checkAccess access base w t).value = (.ok b, u)) : u.cpu.caches = m.cpu.caches := by
  have hcaches := caches_checkDataBreakpoint (m := m) access vaddr
  rw [ht] at hcaches
  rw [(checkAccess_ok hu).1]
  exact hcaches

namespace Transparent
variable {vaddr : UInt32}

/-- The checks before an access leave the caches alone, and only an aligned access passes them. -/
theorem checked {access : Access} {base : UInt32} {w : Width} {x : Exec γ δ α}
    (hx : ∀ u : Machine γ δ, u.cpu.caches = m.cpu.caches → w.aligned base → Transparent x u) :
    Transparent (do
      Machine.checkDataBreakpoint access vaddr
      Machine.checkAccess access base w
      x) m :=
  bind (checkDataBreakpoint _ _) fun _ _ ht => bind (checkAccess _ _ _) fun _ u hu =>
    hx u (caches_checked ht hu) (aligned_of_checkAccess ⟨_, _, hu⟩)

/-- A load answers with what the bus would read: a copy is the word of RAM. -/
theorem cachedLoad_ram (hm : m.Caching) (h : Cacheable vaddr) {w : Width} (hw : w.aligned vaddr) :
    ∃ t, (cachedLoad vaddr (translate vaddr) w m).value =
        (.ok (m.bus.ram.read ((translate vaddr).toNat % ramSize) w), t) ∧
      t.Caching ∧ ∀ d b, t.withArray d b = m.withArray d b := by
  have hread := m.bus.ram.read_eq_extract (translate_aligned hw)
  simp only [cachedLoad]
  rw [exec_get_bind_at]
  cases hl : m.cpu.caches.data.lookup (translate vaddr) with
  | some word =>
    rw [hm.mirrors.lookup hl, hread]
    exact ⟨m, rfl, hm, fun _ _ => rfl⟩
  | none =>
    dsimp only
    rw [exec_bind_ok (busRead_ram h.2 w .load)]
    by_cases hword : w = .word
    · rw [if_pos hword]
      refine ⟨_, rfl, ⟨hm.biu, hm.unisolated, ?_⟩, fun _ _ => rfl⟩
      subst hword
      rw [hread, Lane.extract_word (translate_aligned hw)]
      exact hm.mirrors.fill h.2
    · rw [if_neg hword]
      exact ⟨m, rfl, hm, fun _ _ => rfl⟩

theorem load (h : Cacheable vaddr) (w : Width) : Transparent (load vaddr w) m := by
  refine checked fun u _ hw => of_value fun hm => ?_
  obtain ⟨v, hload, hcaching, hsame⟩ := cachedLoad_ram hm h hw
  refine ⟨.ok (u.bus.ram.read ((translate vaddr).toNat % ramSize) w), v, ?_, hcaching, fun d b hb => ?_⟩
  · refine (congrArg (fun x : Exec γ δ UInt32 => (x u).value) (h.route hm.unisolated)).trans ?_
    rw [if_pos hm.biu]
    exact hload
  · refine (congrArg (fun x : Exec γ δ UInt32 => (x (u.withArray d b)).value)
      (h.route (m := u.withArray d b) hm.unisolated)).trans ?_
    rw [hsame, if_neg (uncaching_withArray hb d)]
    exact busRead_ram h.2 w .load

theorem write_ram (hm : m.Caching) (h : Cacheable vaddr) (value : UInt32) (w : Width) :
    (write vaddr value w m).value = (.ok (), m.written (translate vaddr) value w) := by
  refine (congrArg (fun x : Exec γ δ Unit => (x m).value) (h.route hm.unisolated)).trans ?_
  rw [if_pos hm.biu]
  refine (congrArg Reported.value (exec_bind_ok (a := ()) rfl _)).trans ?_
  exact busWrite_ram (m := { m with cpu := { m.cpu with caches := { m.cpu.caches with
    data := m.cpu.caches.data.writeThrough (translate vaddr) value w } } }) h.2 w value

/-- A copy is written through, and so is RAM. -/
theorem write (h : Cacheable vaddr) (value : UInt32) {w : Width} (hw : w.aligned vaddr)
    (ha : ¬m.cpu.caches.data.Aliased (translate vaddr)) : Transparent (write vaddr value w) m := by
  refine of_value fun hm =>
    ⟨_, _, write_ram hm h value w, ⟨hm.biu, hm.unisolated, ?_⟩, fun d b hb => ?_⟩
  · exact hm.mirrors.store (translate_aligned hw) ha value
  · refine (congrArg (fun x : Exec γ δ Unit => (x (m.withArray d b)).value)
      (h.route (m := m.withArray d b) hm.unisolated)).trans ?_
    rw [if_neg (uncaching_withArray hb d)]
    exact busWrite_ram h.2 w value

theorem store (h : Cacheable vaddr) (value : UInt32) (w : Width)
    (ha : ¬m.cpu.caches.data.Aliased (translate vaddr)) : Transparent (store vaddr value w) m := by
  refine checked fun u hu hw => write h value hw ?_
  rwa [hu]

/-- The pieces of a word leave its tags alone, so that none of them goes to an image of a copy. -/
theorem writePieces {base : UInt32} (h : Cacheable base) (value : UInt32)
    (pieces : List (UInt32 × Width)) (hb : ∀ p ∈ pieces, Lane.base (base + p.1) = Lane.base base)
    (hw : ∀ p ∈ pieces, p.2.aligned (base + p.1)) (ha : ¬m.cpu.caches.data.Aliased (translate base)) :
    Transparent (pieces.forM fun p => Machine.write (base + p.1) (value >>> (8 * p.1)) p.2) m := by
  induction pieces generalizing m with
  | nil => exact pure _
  | cons p pieces ih =>
    have hp := h.congr (hb p List.mem_cons_self)
    have htranslate : Lane.base (translate (base + p.1)) = Lane.base (translate base) := by
      rw [← translate_base, hb p List.mem_cons_self, translate_base]
    have hfirst : ¬m.cpu.caches.data.Aliased (translate (base + p.1)) := fun hal =>
      ha ((DataArray.aliased_congr rfl htranslate).mp hal)
    refine fun hm => bind (write hp _ (hw p List.mem_cons_self) hfirst) (fun _ t ht => ?_) hm
    rw [write_ram hm hp] at ht
    cases ht
    refine ih (fun q hq => hb q (List.mem_cons_of_mem p hq)) (fun q hq => hw q (List.mem_cons_of_mem p hq))
      fun hal => ha ((DataArray.aliased_congr ?_ rfl).mp hal)
    exact DataArray.tags_writeThrough ..

theorem storePieces (h : Cacheable vaddr) (value : UInt32) {l : Fin 4}
    {pieces : List (UInt32 × Width)} (hp : ∀ p ∈ pieces, p ∈ Lane.upTo l ++ Lane.onward l)
    (ha : ¬m.cpu.caches.data.Aliased (translate vaddr)) :
    Transparent (storePieces vaddr value pieces) m := by
  refine checked fun u hu hw => writePieces h.base value pieces (fun p hm => ?_) (fun p hm => ?_) ?_
  · rw [Lane.base_add_piece (hp p hm), Lane.base_base]
  · exact Width.aligned_add_piece hw (hp p hm)
  · rw [hu]
    intro hal
    refine ha ((DataArray.aliased_congr rfl ?_).mp hal)
    rw [translate_base, Lane.base_base]

theorem brought (h : Cacheable vaddr) (op : Load) (current : UInt32) :
    Transparent (brought op current vaddr) m := by
  cases op with
  | lb | lh => exact bind (load h _) fun _ _ _ => pure _
  | lbu | lhu | lw => exact load h _
  | lwl | lwr => exact bind (load h.base _) fun _ _ _ => pure _

theorem executeStore (h : Cacheable vaddr) (op : Store) (value : UInt32)
    (ha : ¬m.cpu.caches.data.Aliased (translate vaddr)) :
    Transparent (executeStore op vaddr value) m := by
  cases op with
  | sb | sh | sw => exact store h _ _ ha
  | swl =>
    rw [executeStore_swl]
    exact storePieces h _ (fun _ hp => List.mem_append_left _ hp) ha
  | swr =>
    rw [executeStore_swr]
    exact storePieces h _ (fun _ hp => List.mem_append_right _ hp) ha

end Transparent

/-- A load or store of the processor. Some loads merge with the value that their register has. -/
inductive DataAccess
  | load (op : Load) (current vaddr : UInt32)
  | store (op : Store) (vaddr value : UInt32)

def DataAccess.vaddr : DataAccess → UInt32
  | .load _ _ vaddr | .store _ vaddr _ => vaddr

def DataAccess.stores : DataAccess → Bool
  | .load .. => false
  | .store .. => true

/-- What an access does in its instruction. A load gives the value that it brings to its register. -/
def access : DataAccess → Exec γ δ (Option UInt32)
  | .load op current vaddr => do return some (← brought op current vaddr)
  | .store op vaddr value => do
    executeStore op vaddr value
    return none

/-- Accesses one after the other, with what each gives; one that raises an exception is passed over. -/
def accessAll : List DataAccess → Machine γ δ → List (Except Exception (Option UInt32)) × Machine γ δ
  | [], m => ([], m)
  | a :: as, m =>
    let rest := accessAll as (access a m).value.2
    ((access a m).value.1 :: rest.1, rest.2)

/-- No store among the accesses goes to a word that is cached by another address at that time. -/
def Unaliased : List DataAccess → Machine γ δ → Prop
  | [], _ => True
  | a :: as, m => (a.stores → ¬m.cpu.caches.data.Aliased (translate a.vaddr)) ∧
    Unaliased as (access a m).value.2

instance decidableUnaliased : (as : List DataAccess) → (m : Machine γ δ) → Decidable (Unaliased as m)
  | [], _ => isTrue trivial
  | a :: as, m =>
    have := decidableUnaliased as (access a m).value.2
    inferInstanceAs (Decidable (_ ∧ _))

theorem Transparent.access {a : DataAccess} (h : Cacheable a.vaddr)
    (ha : a.stores → ¬m.cpu.caches.data.Aliased (translate a.vaddr)) : Transparent (access a) m := by
  cases a with
  | load op current vaddr => exact .bind (.brought h op current) fun _ _ _ => .pure _
  | store op vaddr value => exact .bind (.executeStore h op value (ha rfl)) fun _ _ _ => .pure _

def uncached (m : Machine γ δ) : Machine γ δ :=
  m.withArray m.cpu.caches.data ⟨Word.setBit m.cpu.caches.biu.word 7 false⟩

variable {as : List DataAccess}

theorem Caching.accessAll (hm : m.Caching) (has : ∀ a ∈ as, Cacheable a.vaddr) (hu : Unaliased as m)
    {d : DataArray} {b : Biu} (hb : b.ds = false) : (Machine.accessAll as m).2.Caching ∧
      Machine.accessAll as (m.withArray d b) =
        ((Machine.accessAll as m).1, (Machine.accessAll as m).2.withArray d b) := by
  induction as generalizing m with
  | nil => exact ⟨hm, rfl⟩
  | cons a as ih =>
    obtain ⟨hcaching, hsame⟩ := Transparent.access (has a List.mem_cons_self) hu.1 hm
    obtain ⟨hcaching', hsame'⟩ := ih hcaching (fun a ha => has a (List.mem_cons_of_mem _ ha)) hu.2
    refine ⟨hcaching', ?_⟩
    show (_ :: (Machine.accessAll as _).1, (Machine.accessAll as _).2) = _
    rw [hsame d b hb]
    dsimp only
    rw [hsame']
    rfl

theorem Unaliased.take (h : Unaliased as m) (k : Nat) : Unaliased (as.take k) m := by
  induction as generalizing m k with
  | nil => simp [Unaliased]
  | cons a as ih =>
    cases k with
    | zero => trivial
    | succ k => exact ⟨h.1, ih h.2 k⟩

/-- From a data array that caches main RAM and holds no copies, loads and stores give the same and leave
the same in RAM as with the array disabled, and its copies are what RAM holds at all times. -/
theorem cached_eq_uncached (hbiu : m.cpu.caches.biu.dataCache)
    (hempty : m.cpu.caches.data.tags = Vector.replicate 256 none)
    (hisc : m.cpu.regs.cop0.status.isc = false) (has : ∀ a ∈ as, Cacheable a.vaddr)
    (hu : Unaliased as m) :
    (accessAll as m).1 = (accessAll as m.uncached).1 ∧
      (accessAll as m).2.bus.ram = (accessAll as m.uncached).2.bus.ram ∧
      ∀ k, (accessAll (as.take k) m).2.cpu.caches.data.Mirrors (accessAll (as.take k) m).2.bus.ram := by
  have hm : m.Caching := ⟨hbiu, hisc, DataArray.mirrors_empty hempty⟩
  have hds : (⟨Word.setBit m.cpu.caches.biu.word 7 false⟩ : Biu).ds = false :=
    Word.bit_setBit _ (by decide) (by decide) false
  have hsame := (hm.accessAll has hu (d := m.cpu.caches.data) hds).2
  refine ⟨?_, ?_, fun k => ?_⟩
  · exact (congrArg Prod.fst hsame).symm
  · exact (congrArg (fun p => p.2.bus.ram) hsame).symm
  · exact (hm.accessAll (fun a ha => has a (List.mem_of_mem_take ha)) (hu.take k) (d := {}) (b := {})
      rfl).1.mirrors

def caching : Machine Gte.Registers Unit :=
  (poke 0 [0x11111111] (bare.withArray {} ⟨0x80⟩)).value.2

/-- Loads and stores of several widths, some of them through images. -/
def mixed : List DataAccess :=
  [.load .lw 0 0x80000000, .store .sb 0x00000001 0xab, .load .lw 0 0x00000000,
    .store .swl 0x80000006 0x01020304, .load .lwr 0x55667788 0x80200006, .load .lw 0 0x00600004,
    .store .sh 0x80600006 0xcdef, .load .lhu 0 0x80000006]

set_option maxRecDepth 10000 in
theorem cached_eq_uncached_mixed : caching.cpu.caches.biu.dataCache ∧
    caching.cpu.caches.data.tags = Vector.replicate 256 none ∧
    caching.cpu.regs.cop0.status.isc = false ∧ (∀ a ∈ mixed, Cacheable a.vaddr) ∧
    Unaliased mixed caching ∧ (accessAll mixed caching).1 = (accessAll mixed caching.uncached).1 := by
  have hu : Unaliased mixed caching := by decide +kernel
  have has : ∀ a ∈ mixed, Cacheable a.vaddr := by decide
  exact ⟨rfl, rfl, rfl, has, hu, (cached_eq_uncached rfl rfl rfl has hu).1⟩

/-- A word is loaded, stored to by another of its addresses, and loaded again. -/
def imaged : List DataAccess :=
  [.load .lw 0 0x80000000, .store .sw 0x80200000 0x80200000, .load .lw 0 0x80000000]

set_option maxRecDepth 10000 in
/-- The copy goes stale where the store goes to an image of the word. -/
theorem cached_ne_uncached_imaged : caching.cpu.caches.biu.dataCache ∧
    caching.cpu.caches.data.tags = Vector.replicate 256 none ∧
    caching.cpu.regs.cop0.status.isc = false ∧ (∀ a ∈ imaged, Cacheable a.vaddr) ∧
    (accessAll imaged caching).1 ≠ (accessAll imaged caching.uncached).1 := by
  refine ⟨rfl, rfl, rfl, by decide, fun h => ?_⟩
  have hvalues := congrArg (List.map Except.toOption) h
  revert hvalues
  decide +kernel

end Machine
end R3000
