import R3000.Proofs.DataCache
import R3000.Proofs.HostCalls
import R3000.Proofs.MemoryAccesses

/-! # Where the copies in the data array come from

The data array holds copies only as a data cache. Each is brought in by a load of its whole word and is
changed by stores to that word alone; a change of mode drops all of them, and a store to the isolated
array the one that it overwrites. So nothing that is written to the array in another mode is ever taken
for a copy of main RAM. -/
namespace R3000

namespace Biu
variable {a b c : Biu}

theorem sameMode_iff_modes : a.sameMode b ↔ a.ram = b.ram ∧ a.ds = b.ds ∧ a.is1 = b.is1 := by
  simp [sameMode, and_assoc]

theorem sameMode_refl (a : Biu) : a.sameMode a := sameMode_iff_modes.mpr ⟨rfl, rfl, rfl⟩

theorem sameMode_trans (h : a.sameMode b) (k : b.sameMode c) : a.sameMode c := by
  rw [sameMode_iff_modes] at *
  exact ⟨h.1.trans k.1, h.2.1.trans k.2.1, h.2.2.trans k.2.2⟩

theorem dataCache_congr (h : a.sameMode b) : b.dataCache = a.dataCache := by
  obtain ⟨hram, hds, -⟩ := sameMode_iff_modes.mp h
  simp only [dataCache, hram, hds]

end Biu

namespace DataArray
variable {i : Fin 256}

theorem get_set {α : Type} {n : Nat} (xs : Vector α n) (j i : Fin n) (x : α) :
    (xs.set j x j.isLt).get i = if j = i then x else xs.get i := by
  by_cases h : j = i
  · subst h
    rw [if_pos rfl]
    exact Vector.getElem_set_self j.isLt
  · rw [if_neg h]
    exact Vector.getElem_set_ne j.isLt i.isLt fun hv => h (Fin.ext hv)

theorem get_replicate {α : Type} {n : Nat} (i : Fin n) (x : α) : (Vector.replicate n x).get i = x :=
  Vector.getElem_replicate i.isLt

theorem words_write (d : DataArray) {addr : UInt32} (h : index addr ≠ i) (value : UInt32) (w : Width) :
    (d.write addr value w).words.get i = d.words.get i :=
  (get_set _ _ i _).trans (if_neg h)

theorem tags_storeIsolated (d : DataArray) (addr value : UInt32) (w : Width) :
    (d.storeIsolated addr value w).tags.get i = if index addr = i then none else d.tags.get i :=
  get_set _ _ i _

theorem tags_fill (d : DataArray) (addr value : UInt32) :
    (d.fill addr value).tags.get i = if index addr = i then some (tag addr) else d.tags.get i :=
  get_set _ _ i _

theorem words_fill (d : DataArray) (addr value : UInt32) :
    (d.fill addr value).words.get i = if index addr = i then value else d.words.get i :=
  get_set _ _ i _

theorem words_storeIsolated (d : DataArray) {addr : UInt32} (h : index addr ≠ i) (value : UInt32)
    (w : Width) : (d.storeIsolated addr value w).words.get i = d.words.get i :=
  words_write d h value w

/-- A store changes a copy only if it is one of the word that is stored to. -/
theorem words_writeThrough (d : DataArray) (addr value : UInt32) (w : Width) :
    (d.writeThrough addr value w).words.get i = d.words.get i ∨
      index addr = i ∧ d.tags.get i = some (tag addr) := by
  unfold writeThrough
  split
  · by_cases h : index addr = i
    · exact .inr ⟨h, (isSome_lookup h).mp ‹_›⟩
    · exact .inl (d.words_write h value w)
  · exact .inl rfl

theorem lookup_tagged {d : DataArray} {addr : UInt32} (h : index addr = i)
    (hi : d.tags.get i = some (tag addr)) : d.lookup addr = some (d.words.get i) := by
  subst h
  exact if_pos hi

theorem lookup_untagged {d : DataArray} {addr : UInt32} (h : d.tags.get (index addr) = none) :
    d.lookup addr = none := by
  have hne : ¬d.tags.get (index addr) = some (tag addr) := by
    rw [h]
    exact (Option.some_ne_none _).symm
  exact if_neg hne

end DataArray

namespace Caches
variable {c d e : Caches} {l : UInt32 → Prop} {i : Fin 256} {tag : UInt32}

def Clean (c : Caches) : Prop := ¬c.biu.dataCache → ∀ i : Fin 256, c.data.tags.get i = none

theorem tags_invalidateAll (c : Caches) (i : Fin 256) : c.invalidateAll.data.tags.get i = none :=
  DataArray.get_replicate i none

theorem clean_invalidated (c : Caches) (biu : Biu) : Clean { c.invalidateAll with biu } :=
  fun _ => c.tags_invalidateAll

/-- A copy stays, through no change of mode, and is altered only by a store to its word by one of these
virtual addresses. -/
structure Survives (l : UInt32 → Prop) (i : Fin 256) (tag : UInt32) (c d : Caches) : Prop where
  held : c.data.tags.get i = some tag
  mode : c.biu.sameMode d.biu
  word : d.data.words.get i = c.data.words.get i ∨
    ∃ v, l v ∧ DataArray.index (translate v) = i ∧ DataArray.tag (translate v) = tag

def Overwritten (l : UInt32 → Prop) (c d : Caches) : Prop :=
  c.Clean → d.Clean ∧ ∀ i tag, d.data.tags.get i = some tag → Survives l i tag c d

namespace Overwritten

theorem of_data (h : d.data = c.data) (hb : d.biu = c.biu) : Overwritten l c d := by
  refine fun hc => ⟨?_, fun i tag hi => ⟨h ▸ hi, hb ▸ Biu.sameMode_refl _, .inl (by rw [h])⟩⟩
  simp only [Clean]
  rw [h, hb]
  exact hc

theorem trans (h : Overwritten l c d) (k : Overwritten l d e) : Overwritten l c e := by
  intro hc
  obtain ⟨hd, hh⟩ := h hc
  obtain ⟨he, hk⟩ := k hd
  refine ⟨he, fun i tag hi => ?_⟩
  have second := hk i tag hi
  have first := hh i tag second.held
  refine ⟨first.held, Biu.sameMode_trans first.mode second.mode, ?_⟩
  obtain h2 | h2 := second.word
  · exact first.word.imp_left h2.trans
  · exact .inr h2

theorem mono {l' : UInt32 → Prop} (h : Overwritten l c d) (hl : ∀ v, l v → l' v) :
    Overwritten l' c d := by
  refine fun hc => ⟨(h hc).1, fun i tag hi => ?_⟩
  have hs := (h hc).2 i tag hi
  refine ⟨hs.held, hs.mode, hs.word.imp_right ?_⟩
  rintro ⟨v, hv, hword⟩
  exact ⟨v, hl v hv, hword⟩

theorem setBiu (c : Caches) (value : UInt32) : Overwritten l c (c.setBiu value).value := by
  unfold Caches.setBiu
  intro hc
  split
  · rename_i hmode
    refine ⟨fun hcache => hc (Biu.dataCache_congr hmode ▸ hcache), fun i tag hi => ⟨hi, hmode, .inl rfl⟩⟩
  · refine ⟨clean_invalidated c _, fun i tag hi => ?_⟩
    cases (c.tags_invalidateAll i).symm.trans hi

/-- The scratchpad has no copies. -/
theorem scratchpad (h : c.biu.scratchpad) (addr value : UInt32) (w : Width) :
    Overwritten l c { c with data := c.data.write addr value w } := by
  have hcache : ¬c.biu.dataCache := by
    simp only [Biu.scratchpad, Bool.and_eq_true] at h
    simp [Biu.dataCache, h.2]
  intro hc
  have hnone : ∀ i : Fin 256, (c.data.write addr value w).tags.get i = none := hc hcache
  exact ⟨fun _ => hnone, fun i tag hi => by rw [hnone i] at hi; cases hi⟩

theorem writeThrough {v : UInt32} (hv : l v) (value : UInt32) (w : Width) :
    Overwritten l c { c with data := c.data.writeThrough (translate v) value w } := by
  have htags := DataArray.tags_writeThrough c.data (translate v) value w
  refine fun hc => ⟨?_, fun i tag hi => ⟨htags ▸ hi, Biu.sameMode_refl _, ?_⟩⟩
  · simp only [Clean]
    rw [htags]
    exact hc
  · dsimp only at hi
    rw [htags] at hi
    refine (c.data.words_writeThrough _ value w).imp_right fun ⟨hindex, htag⟩ => ⟨v, hv, hindex, ?_⟩
    exact Option.some.inj (htag.symm.trans hi)

theorem storeIsolated (addr value : UInt32) (w : Width) :
    Overwritten l c { c with data := c.data.storeIsolated addr value w } := by
  refine fun hc => ⟨fun hcache i => ?_, fun i tag hi => ?_⟩
  · rw [DataArray.tags_storeIsolated, hc hcache i, ite_self]
  · dsimp only at hi
    rw [DataArray.tags_storeIsolated] at hi
    split at hi
    · cases hi
    · exact ⟨hi, Biu.sameMode_refl _, .inl (c.data.words_storeIsolated ‹_› value w)⟩

end Overwritten
end Caches

namespace Machine
variable {γ δ α : Type} {m t u : Machine γ δ} {l : UInt32 → Prop}

/-- Stores by some virtual addresses, as far as copies go. -/
def overwriting (l : UInt32 → Prop) : Motion (Machine γ δ) where
  holds m _ t := Caches.Overwritten l m.cpu.caches t.cpu.caches
  still _ _ := .of_data rfl rfl
  trans := .trans

theorem overwriting_of_caches {r : Record} (h : t.cpu.caches = m.cpu.caches) :
    (overwriting l).holds m r t := by
  show Caches.Overwritten l m.cpu.caches t.cpu.caches
  rw [h]
  exact .of_data rfl rfl

theorem ask_overwrites {x : Bus.Op δ (Except BusError α)} (access : Access) (vaddr : UInt32) :
    Moves (overwriting l) (do answer access vaddr (← plain (onBus x)) : Exec γ δ α) m :=
  .exec_bind (.plain (overwriting_of_caches rfl)) fun _ _ _ => answer_moves _ _ _

theorem isolatedStore_overwrites (addr value : UInt32) (w : Width) :
    Moves (overwriting l) (isolatedStore addr value w) m :=
  isolatedStore_moves (fun _ _ hdata hbiu => .plain (.of_data hdata hbiu))
    fun _ _ => .plain (.storeIsolated addr value w)

theorem write_overwrites {vaddr : UInt32} (h : l vaddr) (value : UInt32) (w : Width) :
    Moves (overwriting l) (write vaddr value w) m := by
  refine .exec_get_bind ?_
  dsimp only
  split
  · split
    · refine .exec_lift_bind ((overwriting l).quiet (.setBiu _ _) m) (.plain ?_)
      exact .setBiu _ _
    · exact .exec_lift_bind ((overwriting l).still m _) ((overwriting l).still m [])
  split
  · exact isolatedStore_overwrites _ _ _
  split
  · rename_i hscratch
    simp only [Bool.and_eq_true] at hscratch
    exact .plain (.scratchpad hscratch.2 _ _ _)
  split
  · exact .exec_bind (.plain (.writeThrough h value w)) fun _ _ _ => ask_overwrites _ _
  · exact ask_overwrites _ _

structure Copied (l : UInt32 → Prop) (i : Fin 256) (tag : UInt32) (m t : Machine γ δ) : Prop where
  cache : m.cpu.caches.biu.dataCache
  source : ∃ v, l v ∧ DataArray.index (translate v) = i ∧ DataArray.tag (translate v) = tag ∧
    t.cpu.caches.data.words.get i = m.bus.ram.word (translate v)

structure Filled (l : UInt32 → Prop) (m t : Machine γ δ) : Prop where
  biu : t.cpu.caches.biu = m.cpu.caches.biu
  ram : t.bus.ram = m.bus.ram
  copies : ∀ i tag, t.cpu.caches.data.tags.get i = some tag →
    (m.cpu.caches.data.tags.get i = some tag ∧
      t.cpu.caches.data.words.get i = m.cpu.caches.data.words.get i) ∨ Copied l i tag m t

theorem Filled.of_data (hd : t.cpu.caches.data = m.cpu.caches.data)
    (hb : t.cpu.caches.biu = m.cpu.caches.biu) (hr : t.bus.ram = m.bus.ram) : Filled l m t :=
  ⟨hb, hr, fun _ _ hi => .inl ⟨hd ▸ hi, by rw [hd]⟩⟩

theorem Filled.trans (h : Filled l m t) (k : Filled l t u) : Filled l m u := by
  refine ⟨k.biu.trans h.biu, k.ram.trans h.ram, fun i tag hi => ?_⟩
  obtain ⟨ht, hword⟩ | ⟨hcache, v, hv, hindex, htag, hword⟩ := k.copies i tag hi
  · obtain ⟨hm, hword'⟩ | ⟨hcache, v, hv, hindex, htag, hword'⟩ := h.copies i tag ht
    · exact .inl ⟨hm, hword.trans hword'⟩
    · exact .inr ⟨hcache, v, hv, hindex, htag, hword.trans hword'⟩
  · refine .inr ⟨h.biu ▸ hcache, v, hv, hindex, htag, ?_⟩
    rw [hword, h.ram]

theorem Filled.clean (h : Filled l m t) (hm : m.cpu.caches.Clean) : t.cpu.caches.Clean := by
  intro hcache i
  rw [h.biu] at hcache
  cases hi : t.cpu.caches.data.tags.get i with
  | none => rfl
  | some tag =>
    obtain ⟨hheld, -⟩ | hcopied := h.copies i tag hi
    · exact hheld.symm.trans (hm hcache i)
    · exact absurd hcopied.cache hcache

/-- A word of RAM is copied. -/
theorem Filled.copy {vaddr : UInt32} (h : l vaddr) (hcache : m.cpu.caches.biu.dataCache) :
    Filled l m { m with cpu := { m.cpu with caches := { m.cpu.caches with
      data := m.cpu.caches.data.fill (translate vaddr) (m.bus.ram.word (translate vaddr)) } } } := by
  refine ⟨rfl, rfl, fun i tag hi => ?_⟩
  dsimp only at hi ⊢
  rw [DataArray.tags_fill] at hi
  by_cases hindex : DataArray.index (translate vaddr) = i
  · rw [if_pos hindex] at hi
    refine .inr ⟨hcache, vaddr, h, hindex, Option.some.inj hi, ?_⟩
    dsimp only
    rw [DataArray.words_fill, if_pos hindex]
  · rw [if_neg hindex] at hi
    rw [DataArray.words_fill, if_neg hindex]
    exact .inl ⟨hi, rfl⟩

theorem Filled.of_kept {taken : Fin 2 → Prop} (h : Kept taken m t) : Filled l m t :=
  .of_data h.data h.biu h.bus.ram

theorem Filled.of_backs (h : Backs m t) : Filled l m t :=
  .of_data (congrArg Caches.data h.caches) (congrArg Caches.biu h.caches) (congrArg Bus.ram h.bus)

theorem Filled.mono {l' : UInt32 → Prop} (h : Filled l m t) (hl : ∀ v, l v → l' v) : Filled l' m t := by
  refine ⟨h.biu, h.ram, fun i tag hi => (h.copies i tag hi).imp_right fun hc => ⟨hc.cache, ?_⟩⟩
  obtain ⟨v, hv, hcopy⟩ := hc.source
  exact ⟨v, hl v hv, hcopy⟩

def filling (l : UInt32 → Prop) : Motion (Machine γ δ) where
  holds m _ t := Filled l m t
  still _ _ := .of_data rfl rfl rfl
  trans := .trans

theorem filling_of_untouched {r : Record} (h : Untouched m r t) : (filling l).holds m r t :=
  .of_data (congrArg Caches.data h.caches) (congrArg Caches.biu h.caches) (congrArg Bus.ram h.bus)

theorem busRead_fills (access : Access) (vaddr addr : UInt32) (w : Width) :
    Moves (filling l) (busRead access vaddr addr w) m := by
  have hread : Moves (filling l) (plain (onBus (Bus.read addr w)) : Exec γ δ _) m :=
    .plain (Filled.of_data rfl rfl (Bus.read_kept (b := m.bus) addr w).1.ram)
  exact .exec_bind hread fun _ _ _ => answer_moves _ _ _

/-- A load that passes the copies by brings in the word of RAM, if it is one of a whole word. -/
theorem cachedLoad_fills {vaddr : UInt32} {w : Width} (h : w = .word → l vaddr)
    (hcache : m.cpu.caches.biu.dataCache) (hlt : translate vaddr < ramWindowEnd)
    (hw : w.aligned vaddr) : Moves (filling l) (cachedLoad vaddr (translate vaddr) w) m := by
  refine .exec_get_bind ?_
  split
  · exact .exec_lift_bind ((filling l).still m _) (.pure _)
  refine .exec_bind (busRead_fills _ _ _ _) fun value t ht => ?_
  split
  · subst w
    refine .exec_bind (.plain ?_) fun _ _ _ => .pure _
    rw [busRead_ram hlt .word .load] at ht
    cases ht
    have hword : m.bus.ram.read ((translate vaddr).toNat % ramSize) .word =
        m.bus.ram.word (translate vaddr) := by
      rw [m.bus.ram.read_eq_extract (translate_aligned hw), Lane.extract_word (translate_aligned hw)]
    rw [hword]
    exact .copy (h rfl) hcache
  · exact .pure _

theorem load_fills {vaddr : UInt32} {w : Width} (h : w = .word → l vaddr) :
    Moves (filling l) (load vaddr w) m := by
  have hin : ∀ {m : Machine γ δ} {r t}, Inward m r t → (filling l).holds m r t := fun h =>
    filling_of_untouched h.toUntouched
  refine .exec_bind (hin (checkDataBreakpoint_inward _ _)) fun _ t _ =>
    .exec_bind (hin (checkAccess_inward _ _ _)) fun _ u hu => .exec_get_bind ?_
  dsimp only
  split
  · split
    · exact .pure _
    · exact .exec_lift_bind ((filling l).still u _) ((filling l).still u [])
  split
  · exact .pure _
  split
  · exact .pure _
  split
  · rename_i hcached
    simp only [Bool.and_eq_true, decide_eq_true_eq] at hcached
    exact cachedLoad_fills h hcached.1.2 hcached.2 (aligned_of_checkAccess ⟨_, _, hu⟩)
  · exact busRead_fills _ _ _ _

theorem loads_or_stores (i : Instruction) (o : Operands) : i.loads? o = none ∨ i.stores o = [] := by
  cases i with
  | immediate op f =>
    cases op with
    | store op | swc z => exact .inl rfl
    | _ => exact .inr rfl
  | _ => exact .inl rfl

/-- An instruction copies the word that it loads, or else does to the copies what its stores do. -/
theorem copies_perform (o : Operands) (pc : UInt32) (i : Instruction) (m : Machine γ δ) :
    Filled (fun v => i.loads? o = some (v, .word)) m (perform o pc i m).value.2 ∨
      Caches.Overwritten (· ∈ i.stores o) m.cpu.caches (perform o pc i m).value.2.cpu.caches := by
  obtain h | h := loads_or_stores i o
  · have hperform : Moves (overwriting (· ∈ i.stores o)) (perform o pc i) m :=
      perform_moves (fun k => overwriting_of_caches k.caches) (fun v w hv => by rw [h] at hv; cases hv)
        (fun v hv value w t => write_overwrites hv value w) pc
        fun f _ => overwriting_of_caches (performCop0_untouched o pc f).caches
    exact .inr hperform
  · have hperform : Moves (filling fun v => i.loads? o = some (v, .word)) (perform o pc i) m :=
      perform_moves (fun k => filling_of_untouched k.toUntouched)
        (fun v w hv t => load_fills fun hw => hw ▸ hv) (fun v hv => by rw [h] at hv; cases hv) pc
        fun f _ => filling_of_untouched (performCop0_untouched o pc f)
    exact .inl hperform

def LoadsWord (m : Machine γ δ) (v : UInt32) : Prop :=
  ∃ i, m.completed? = some i ∧ i.loads? m.operands = some (v, .word)

def StoresAt (m : Machine γ δ) (v : UInt32) : Prop :=
  ∃ i, m.completed? = some i ∧ v ∈ i.stores m.operands

/-- A step copies the word that it loads, or else does to the copies what its stores do. -/
theorem copies_step (m : Machine γ δ) : Filled m.LoadsWord m (step m).value.2 ∨
    Caches.Overwritten m.StoresAt m.cpu.caches (step m).value.2.cpu.caches := by
  have hsupplied := m.supplied_kept.1
  have hperformed := m.performed
  generalize hc : m.completed? = c at hperformed
  cases hperformed with
  | unexecuted hbacks => exact .inl ((Filled.of_kept hsupplied).trans (.of_backs hbacks))
  | faulted hraised =>
    -- exceptions are precise, so what the instruction has begun to do does not show
    exact .inl ((Filled.of_kept (attempt_faithful hraised).1).trans (.of_backs m.attempt_backs))
  | @completed i t u hu hp hbacks =>
    obtain hfill | hstore := copies_perform m.operands m.cpu.regs.pc i m.supplied
    · rw [hp] at hfill
      have hload : Filled m.LoadsWord m.supplied u := hfill.mono fun v hv => ⟨i, hc, hv⟩
      exact .inl (((Filled.of_kept hsupplied).trans hload).trans (.of_backs hbacks))
    · rw [hp] at hstore
      have hstored : Caches.Overwritten m.StoresAt m.supplied.cpu.caches u.cpu.caches :=
        hstore.mono fun v hv => ⟨i, hc, hv⟩
      rw [hbacks.caches]
      exact .inr (.trans (.of_data hsupplied.data hsupplied.biu) hstored)

/-- The next step loads the word at a physical address into the data cache. -/
structure Fills (m : Machine γ δ) (addr : UInt32) : Prop where
  load : ∃ v, m.LoadsWord v ∧ Lane.base (translate v) = Lane.base addr
  cache : m.cpu.caches.biu.dataCache
  biu : (next m).value.2.cpu.caches.biu = m.cpu.caches.biu
  copy : (next m).value.2.cpu.caches.data.lookup addr = some (m.bus.ram.word addr)

/-- The next step keeps the copy of a word, and the mode of the caches, and alters the copy only if it
stores to that word. -/
structure KeepsCopy (m : Machine γ δ) (addr : UInt32) : Prop where
  before : (m.cpu.caches.data.lookup addr).isSome
  after : ((next m).value.2.cpu.caches.data.lookup addr).isSome
  mode : m.cpu.caches.biu.sameMode (next m).value.2.cpu.caches.biu
  word : (next m).value.2.cpu.caches.data.lookup addr = m.cpu.caches.data.lookup addr ∨
    ∃ v, m.StoresAt v ∧ Lane.base (translate v) = Lane.base addr

theorem Copied.fills {i : Fin 256} {tag : UInt32} (h : Copied m.LoadsWord i tag m (step m).value.2)
    (hb : (step m).value.2.cpu.caches.biu = m.cpu.caches.biu)
    (hi : (step m).value.2.cpu.caches.data.tags.get i = some tag) :
    ∃ addr, DataArray.index addr = i ∧ DataArray.tag addr = tag ∧ m.Fills addr := by
  obtain ⟨hcache, v, hv, hindex, rfl, hword⟩ := h
  refine ⟨translate v, hindex, rfl, ⟨v, hv, rfl⟩, hcache, hb, ?_⟩
  rw [cpu_next, DataArray.lookup_tagged hindex hi, hword]

theorem keepsCopy_of_survives {i : Fin 256} {addr : UInt32} (hindex : DataArray.index addr = i)
    (h : Caches.Survives m.StoresAt i (DataArray.tag addr) m.cpu.caches (step m).value.2.cpu.caches)
    (hi : (step m).value.2.cpu.caches.data.tags.get i = some (DataArray.tag addr)) : m.KeepsCopy addr := by
  refine ⟨(DataArray.isSome_lookup hindex).mpr h.held, (DataArray.isSome_lookup hindex).mpr hi, h.mode, ?_⟩
  rw [cpu_next, DataArray.lookup_tagged hindex hi, DataArray.lookup_tagged hindex h.held]
  refine h.word.imp (congrArg some) ?_
  rintro ⟨v, hv, hat, htag⟩
  exact ⟨v, hv, DataArray.base_eq_iff.mpr ⟨hat.trans hindex.symm, htag⟩⟩

/-- There are copies only in a data cache, and the next step's are those that it fills in or keeps. -/
theorem copies_next (hm : m.cpu.caches.Clean) : (next m).value.2.cpu.caches.Clean ∧
    ∀ i tag, (next m).value.2.cpu.caches.data.tags.get i = some tag →
      (∃ addr, DataArray.index addr = i ∧ DataArray.tag addr = tag ∧ m.Fills addr) ∨
        m.cpu.caches.data.tags.get i = some tag ∧
          ∀ addr, DataArray.index addr = i → DataArray.tag addr = tag → m.KeepsCopy addr := by
  rw [cpu_next]
  obtain h | h := m.copies_step
  · refine ⟨h.clean hm, fun i tag hi => ?_⟩
    obtain ⟨hheld, hword⟩ | hcopied := h.copies i tag hi
    · refine .inr ⟨hheld, ?_⟩
      rintro addr hindex rfl
      exact keepsCopy_of_survives hindex ⟨hheld, h.biu ▸ Biu.sameMode_refl _, .inl hword⟩ hi
    · exact .inl (hcopied.fills h.biu hi)
  · obtain ⟨hclean, hsurvive⟩ := h hm
    refine ⟨hclean, fun i tag hi => .inr ⟨(hsurvive i tag hi).held, ?_⟩⟩
    rintro addr hindex rfl
    exact keepsCopy_of_survives hindex (hsurvive i _ hi) hi

/-- The copy of the word at a physical address goes back to a step that has loaded that word. Since then
the mode of the caches has not changed, nor the copy but by steps that have stored to that word. -/
inductive Traced (addr : UInt32) : {γ δ : Type} → Machine γ δ → Prop
  | filled {γ δ : Type} {m : Machine γ δ} : m.Fills addr → Traced addr (next m).value.2
  | kept {γ δ : Type} {m : Machine γ δ} : Traced addr m → m.KeepsCopy addr → Traced addr (next m).value.2
  | handled {γ δ γ' δ' : Type} {m : Machine γ δ} {t : Machine γ' δ'} : Traced addr m → Handled m t →
      t.cpu = m.cpu → Traced addr t
  | restored {γ δ γ' δ' : Type} (m : Machine γ δ) {c : Machine γ' δ'} : Traced addr c →
      Traced addr (m.restore c.savestate.toBytes).value.2

/-- There are copies only in a data cache, and each goes back to a load of its word. -/
structure Provenance (m : Machine γ δ) : Prop where
  clean : m.cpu.caches.Clean
  traced : ∀ i tag, m.cpu.caches.data.tags.get i = some tag →
    ∃ addr, DataArray.index addr = i ∧ DataArray.tag addr = tag ∧ Traced addr m

theorem Provenance.next (h : m.Provenance) : (Machine.next m).value.2.Provenance := by
  obtain ⟨hclean, hcopies⟩ := copies_next h.clean
  refine ⟨hclean, fun i tag hi => ?_⟩
  obtain ⟨addr, hindex, htag, hfill⟩ | ⟨hheld, hkeep⟩ := hcopies i tag hi
  · exact ⟨addr, hindex, htag, .filled hfill⟩
  · obtain ⟨addr, hindex, htag, htraced⟩ := h.traced i tag hheld
    exact ⟨addr, hindex, htag, .kept htraced (hkeep addr hindex htag)⟩

theorem provenance_of_empty (h : m.cpu.caches = {}) : m.Provenance := by
  have hnone : ∀ i : Fin 256, m.cpu.caches.data.tags.get i = none := by
    intro i
    rw [h]
    exact DataArray.get_replicate i none
  exact ⟨fun _ => hnone, fun i tag hi => by rw [hnone i] at hi; cases hi⟩

theorem Provenance.handled {γ' δ' : Type} {t : Machine γ' δ'} (h : m.Provenance) (hm : Handled m t) :
    t.Provenance := by
  obtain hcpu | hcpu := hm.cpu
  · refine ⟨hcpu ▸ h.clean, fun i tag hi => ?_⟩
    rw [hcpu] at hi
    obtain ⟨addr, hindex, htag, htraced⟩ := h.traced i tag hi
    exact ⟨addr, hindex, htag, .handled htraced hm hcpu⟩
  · exact provenance_of_empty (congrArg Cpu.caches hcpu)

theorem Provenance.restored {γ' δ' : Type} {c : Machine γ' δ'} (h : c.Provenance) (m : Machine γ δ) :
    (m.restore c.savestate.toBytes).value.2.Provenance := by
  have hcaches : (m.restore c.savestate.toBytes).value.2.cpu.caches = c.cpu.caches := by
    rw [m.restore_saved c.savestate]
    rfl
  constructor
  · rw [hcaches]
    exact h.clean
  rw [hcaches]
  intro i tag hi
  obtain ⟨addr, hindex, htag, htraced⟩ := h.traced i tag hi
  exact ⟨addr, hindex, htag, .restored m htraced⟩

theorem Reachable.provenance (h : m.Reachable) : m.Provenance := by
  induction h with
  | create => exact provenance_of_empty rfl
  | attachGte gte gteState _ ih => exact ih.handled (.attachGte _ gte gteState)
  | attachDevice device outside _ ih => exact ih.handled (.attachDevice _ device outside)
  | loadRom image _ ih => exact ih.handled (.loadRom _ image)
  | poke addr words _ ih => exact ih.handled (.poke _ addr words)
  | raise sources _ ih => exact ih.handled (.raise _ sources)
  | serialInput port mask levels _ ih => exact ih.handled (.serialInput _ port mask levels)
  | listen port l _ ih => exact ih.handled (.listen _ port l)
  | bindReader channel r _ ih => exact ih.handled (.bindReader _ channel r)
  | bindWriter channel w _ ih => exact ih.handled (.bindWriter _ channel w)
  | reset _ ih => exact ih.handled (.reset _)
  | restore _ _ _ ih => exact ih.restored _
  | next _ ih => exact ih.next

/-- A word without a copy stays without one, and none is left after a change of mode. -/
structure Untagging (m t : Machine γ δ) : Prop where
  mode : m.cpu.caches.biu.sameMode t.cpu.caches.biu ∨ ∀ i : Fin 256, t.cpu.caches.data.tags.get i = none
  tags : ∀ i : Fin 256, m.cpu.caches.data.tags.get i = none → t.cpu.caches.data.tags.get i = none

theorem Untagging.trans (h : Untagging m t) (k : Untagging t u) : Untagging m u := by
  refine ⟨?_, fun i hi => k.tags i (h.tags i hi)⟩
  obtain hmode | hnone := h.mode
  · exact k.mode.imp_left (Biu.sameMode_trans hmode)
  · exact .inr fun i => k.tags i (hnone i)

def untagging : Motion (Machine γ δ) where
  holds m _ t := Untagging m t
  still _ _ := ⟨.inl (Biu.sameMode_refl _), fun _ => id⟩
  trans := .trans

theorem modifyCaches_untags {f : Caches → Caches} (hb : (f m.cpu.caches).biu = m.cpu.caches.biu)
    (ht : ∀ i : Fin 256, m.cpu.caches.data.tags.get i = none →
      (f m.cpu.caches).data.tags.get i = none) :
    Moves (isolating untagging) (modifyCaches f) m :=
  .plain fun hm => ⟨hm, .inl (hb ▸ Biu.sameMode_refl _), ht⟩

theorem isolatedStore_untags (addr value : UInt32) (w : Width) :
    Moves (isolating untagging) (isolatedStore addr value w) m := by
  refine isolatedStore_moves (fun _ f hdata hbiu => modifyCaches_untags hbiu fun i hi => ?_)
    fun _ _ => modifyCaches_untags rfl fun i hi => ?_
  · rw [hdata]
    exact hi
  · rw [DataArray.tags_storeIsolated, hi, ite_self]

theorem setBiu_untags (value : UInt32) :
    Moves (isolating untagging) (modifyCaches fun _ => (m.cpu.caches.setBiu value).value) m := by
  unfold Caches.setBiu
  split
  · exact .plain fun hm => ⟨hm, .inl ‹_›, fun _ => id⟩
  · exact .plain fun hm => ⟨hm, .inr m.cpu.caches.tags_invalidateAll, fun i _ =>
      m.cpu.caches.tags_invalidateAll i⟩

theorem write_untags (vaddr value : UInt32) (w : Width) :
    Moves (isolating untagging) (write vaddr value w) m :=
  write_isolates (fun _ _ => setBiu_untags _) fun _ => isolatedStore_untags _ _ _

/-- The caches are isolated, and stores go to the data array. -/
structure DataIsolated (m : Machine γ δ) : Prop where
  isolated : m.cpu.regs.cop0.status.isc
  data : ¬m.cpu.caches.biu.is1
  enabled : m.cpu.caches.biu.ds

theorem DataIsolated.later (h : m.DataIsolated) (ht : t.cpu.regs.cop0.status.isc) (k : Untagging m t) :
    t.DataIsolated ∨ ∀ i : Fin 256, t.cpu.caches.data.tags.get i = none := by
  refine k.mode.imp_left fun hmode => ?_
  obtain ⟨-, hds, his1⟩ := Biu.sameMode_iff_modes.mp hmode
  exact ⟨ht, his1 ▸ h.data, hds ▸ h.enabled⟩

/-- The words at these virtual addresses have no copies, but for kseg2. -/
def Untagged (l : List UInt32) (m : Machine γ δ) : Prop :=
  ∀ v ∈ l, Segment.of v ≠ .kseg2 → m.cpu.caches.data.tags.get (DataArray.index (translate v)) = none

theorem untagged_nil : Untagged [] m := fun _ hv => absurd hv List.not_mem_nil

theorem Untagged.later {l : List UInt32} (h : Untagged l m) (ht : Untagging m t) : Untagged l t :=
  fun v hv hseg => ht.tags _ (h v hv hseg)

theorem untagged_write (h : m.DataIsolated) (vaddr value : UInt32) (w : Width) :
    Untagged [vaddr] (write vaddr value w m).value.2 := by
  intro v hv hseg
  rw [List.mem_singleton.mp hv] at hseg ⊢
  have hstored : (write vaddr value w m).value.2.cpu.caches.data =
      m.cpu.caches.data.storeIsolated (translate vaddr) value w := by
    unfold write
    rw [exec_get_bind_at]
    dsimp only
    rw [if_neg hseg, if_pos h.isolated]
    unfold isolatedStore
    rw [exec_get_bind_at]
    dsimp only
    rw [if_neg h.data, if_pos h.enabled]
    rfl
  rw [hstored, DataArray.tags_storeIsolated, if_pos rfl]

theorem untagged_writePieces (h : m.DataIsolated) {base value : UInt32} {pieces : List (UInt32 × Width)}
    {a : PUnit} (hp : ((pieces.forM fun p => write (base + p.1) (value >>> (8 * p.1)) p.2 :
      Exec γ δ PUnit) m).value = (.ok a, t)) : Untagged (pieces.map fun p => base + p.1) t := by
  induction pieces generalizing m with
  | nil => exact untagged_nil
  | cons p pieces ih =>
    obtain ⟨_, u, hu, hrest⟩ := exec_bind_inv hp
    -- the first piece drops its copy, and the others bring none back
    obtain ⟨hisc, hmoved⟩ := (write_untags _ _ _).holds hu h.isolated
    have hpieces : Moves (isolating untagging)
        (pieces.forM fun p => write (base + p.1) (value >>> (8 * p.1)) p.2 : Exec γ δ PUnit) u :=
      writePieces_moves (fun p _ _ _ => write_untags _ _ _) value
    obtain ⟨-, hlater⟩ := hpieces.holds hrest hisc
    have hfirst := untagged_write h (base + p.1) (value >>> (8 * p.1)) p.2
    rw [hu] at hfirst
    intro v hv
    obtain rfl | hv := List.mem_cons.mp hv
    · exact hfirst.later hlater _ List.mem_cons_self
    · obtain hd | hnone := h.later hisc hmoved
      · exact ih hd hrest v hv
      · exact fun _ => hlater.tags _ (hnone _)

theorem DataIsolated.inward {r : Record} (h : m.DataIsolated) (k : Inward m r t) : t.DataIsolated :=
  ⟨k.status ▸ h.isolated, k.caches ▸ h.data, k.caches ▸ h.enabled⟩

/-- A part of a store that leaves memory alone comes before it. -/
theorem DataIsolated.past (h : m.DataIsolated) {x : Exec γ δ α} (hx : Moves Machine.inward x m)
    {f : α → Exec γ δ β} {b : β} (hu : ((x >>= f) m).value = (.ok b, u)) :
    ∃ a t, t.DataIsolated ∧ (f a t).value = (.ok b, u) := by
  obtain ⟨a, t, ht, hf⟩ := exec_bind_inv hu
  exact ⟨a, t, h.inward (hx.holds ht), hf⟩

theorem untagged_store (h : m.DataIsolated) {vaddr value : UInt32} {w : Width} {a : Unit}
    (hs : (store vaddr value w m).value = (.ok a, t)) : Untagged [vaddr] t := by
  obtain ⟨_, u, hu, hs⟩ := h.past (checkDataBreakpoint_inward _ _) hs
  obtain ⟨_, v, hv, hs⟩ := hu.past (checkAccess_inward _ _ _) hs
  have hstored := untagged_write hv vaddr value w
  rwa [hs] at hstored

theorem untagged_storePieces (h : m.DataIsolated) {vaddr value : UInt32} {pieces : List (UInt32 × Width)}
    {a : Unit} (hs : (storePieces vaddr value pieces m).value = (.ok a, t)) :
    Untagged (pieces.map fun p => Lane.base vaddr + p.1) t := by
  obtain ⟨_, u, hu, hs⟩ := h.past (checkDataBreakpoint_inward _ _) hs
  obtain ⟨_, v, hv, hs⟩ := hu.past (checkAccess_inward _ _ _) hs
  exact untagged_writePieces hv hs

theorem untagged_executeStore (h : m.DataIsolated) {op : Store} {vaddr value : UInt32} {a : Unit}
    (hs : (executeStore op vaddr value m).value = (.ok a, t)) : Untagged (op.accesses vaddr) t := by
  cases op with
  | sb | sh | sw => exact untagged_store h hs
  | swl =>
    rw [executeStore_swl] at hs
    exact untagged_storePieces h hs
  | swr =>
    rw [executeStore_swr] at hs
    exact untagged_storePieces h hs

theorem untagged_perform (h : m.DataIsolated) {o : Operands} {pc : UInt32} {i : Instruction} {e : Effect}
    (hp : (perform o pc i m).value = (.ok e, t)) : Untagged (i.stores o) t := by
  cases i with
  | jump op f | register op f => exact untagged_nil
  | immediate op f =>
    cases op with
    | alu op | branch op | load op | lwc z => exact untagged_nil
    | store op =>
      obtain ⟨vaddr, u, hu, hstore⟩ := exec_bind_inv hp
      obtain ⟨_, v, hv, hdone⟩ := exec_bind_inv hstore
      cases hdone
      cases hu
      exact untagged_executeStore h hv
    | swc z =>
      obtain ⟨_, u, hu, hdone⟩ := exec_bind_inv hp
      cases hdone
      obtain ⟨_, v, hv, hform⟩ := h.past (requireCop_inward z) hu
      obtain ⟨vaddr, w, hw, hstore⟩ := exec_bind_inv hform
      cases hw
      by_cases hz : z = .geometry
      · rw [if_pos hz] at hstore
        obtain ⟨_, x, hx, hget⟩ := hv.past (.plain awaitGte_inward) hstore
        simp only [Instruction.stores, Cop.accesses, if_pos hz]
        rw [exec_get_bind_at] at hget
        exact untagged_store hx hget
      · simp only [Instruction.stores, Cop.accesses, if_neg hz]
        exact untagged_nil

/-- After a store to the isolated data array, the word that it has gone to has no copy. -/
theorem DataIsolated.untagged (h : m.DataIsolated) {i : Instruction} (hi : m.completed? = some i) :
    Untagged (i.stores m.operands) (next m).value.2 := by
  obtain ⟨hkept, hstatus⟩ := m.supplied_kept
  have hsupplied : m.supplied.DataIsolated :=
    ⟨hstatus ▸ h.isolated, hkept.biu ▸ h.data, hkept.biu ▸ h.enabled⟩
  obtain ⟨u, hp, hbacks⟩ := performed_of_completed hi
  intro v hv hseg
  rw [cpu_next, hbacks.caches]
  exact untagged_perform hsupplied hp v hv hseg

/-- Copies in the data array of a machine that a host can bring about: only a data cache has any, each
goes back to a load of its word, and one that an isolated store overwrites is gone. -/
theorem Reachable.copies_traced (h : m.Reachable) :
    (¬m.cpu.caches.biu.dataCache → m.cpu.caches.data.tags = Vector.replicate 256 none) ∧
      (∀ i tag, m.cpu.caches.data.tags.get i = some tag →
        ∃ addr, DataArray.index addr = i ∧ DataArray.tag addr = tag ∧ Traced addr m) ∧
      (m.DataIsolated → ∀ i, m.completed? = some i →
        Untagged (i.stores m.operands) (Machine.next m).value.2) := by
  refine ⟨fun hcache => ?_, h.provenance.traced, fun hm i hi => hm.untagged hi⟩
  refine Vector.ext fun i hi => ?_
  rw [Vector.getElem_replicate]
  exact h.provenance.clean hcache ⟨i, hi⟩

/-- The word at 0x100 is in the data cache, and the next step stores to it in isolation. -/
def evicting : Machine Gte.Registers Unit :=
  (booting [0x3c08fffe, 0x35080130, 0x24090080, 0xad090000, 0x3c0a8000, 0x8d4b0100, 0x3c090001,
    0x40896000, 0xad490100] (by decide)).steps 8

theorem reachable_evicting : evicting.Reachable := .steps 8 (reachable_booting _ _)

set_option maxRecDepth 10000 in
theorem copies_traced_evicting : evicting.Reachable ∧ evicting.cpu.caches.biu.dataCache ∧
    evicting.cpu.caches.data.lookup 0x100 = some 0 ∧
    (∃ addr, DataArray.index addr = 64 ∧ DataArray.tag addr = 0 ∧ Traced addr evicting) ∧
    (next evicting).value.2.cpu.caches.data.lookup 0x100 = none := by
  have hisolated : evicting.DataIsolated := by constructor <;> decide +kernel
  have hstore : evicting.completed? = some (.immediate (.store .sw) ⟨10, 9, 0x100⟩) := by decide +kernel
  obtain ⟨-, htraced, huntagged⟩ := reachable_evicting.copies_traced
  have hnone := huntagged hisolated _ hstore 0x80000100 (by decide +kernel) (by decide)
  exact ⟨reachable_evicting, by decide +kernel, by decide +kernel, htraced 64 0 (by decide +kernel),
    DataArray.lookup_untagged hnone⟩

end Machine
end R3000
