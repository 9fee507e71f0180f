import R3000.Caches
import R3000.Proofs.SameWord
import R3000.Proofs.WordBits

/-! # The instruction cache is transparent

From the empty cache on, and as long as memory does not change, a fetch gives the word of memory,
whatever was fetched and invalidated before. Which words are held can be told from the history of the
cache alone: a fetch holds the rest of its line, until the line is invalidated or taken by another one. -/
namespace R3000

namespace ICache

namespace Address

theorem toNat_tag (addr : UInt32) : (of addr).tag.toNat = addr.toNat / 4096 :=
  Word.toNat_shiftRight addr 12 4096 rfl

theorem val_line (addr : UInt32) : (of addr).line.val = addr.toNat / 16 % 256 := by
  show (addr.toNat >>> 4) % 256 = _
  rw [Nat.shiftRight_eq_div_pow]

theorem val_word (addr : UInt32) : (of addr).word.val = addr.toNat / 4 % 4 := by
  show (addr.toNat >>> 2) % 4 = _
  rw [Nat.shiftRight_eq_div_pow]

/-- Addresses share their 16 bytes where they share the line and the tag. -/
theorem shift_eq_iff {x y : UInt32} :
    x >>> 4 = y >>> 4 ↔ (of x).line = (of y).line ∧ (of x).tag = (of y).tag := by
  rw [← UInt32.toNat_inj, ← UInt32.toNat_inj, Fin.ext_iff, Word.toNat_shiftRight x 4 16 rfl,
    Word.toNat_shiftRight y 4 16 rfl, toNat_tag, toNat_tag, val_line, val_line]
  omega

theorem wordAddr_word (addr : UInt32) : (of addr).wordAddr (of addr).word = Lane.base addr := by
  rw [← UInt32.toNat_inj, toNat_wordAddr, Lane.toNat_base, val_word]
  omega

theorem wordAddr_congr {x y : UInt32} (h : x >>> 4 = y >>> 4) (w : Fin 4) :
    (of x).wordAddr w = (of y).wordAddr w := by
  obtain ⟨hline, htag⟩ := shift_eq_iff.mp h
  simp only [wordAddr]
  rw [hline, htag]

end Address

/-- The word at an address and those after it, up to the end of their line of 16 bytes. -/
def restOfLine (addr : UInt32) : List UInt32 :=
  (List.range (4 - addr.toNat / 4 % 4)).map fun i => Lane.base addr + UInt32.ofNat (4 * i)

theorem mem_wordsFrom {w v : Fin 4} : v ∈ wordsFrom w ↔ w ≤ v := by
  simp [wordsFrom]

theorem wordAddr_wordsFrom (addr : UInt32) :
    (wordsFrom (Address.of addr).word).map (Address.of addr).wordAddr = restOfLine addr := by
  have hfrom : ∀ w : Fin 4, wordsFrom w = (List.range (4 - w.val)).map fun i => Fin.ofNat 4 (w + i) := by
    decide
  rw [hfrom, List.map_map, restOfLine, Address.val_word]
  refine List.map_congr_left fun i hi => ?_
  rw [List.mem_range] at hi
  have := addr.toNat_lt
  rw [← UInt32.toNat_inj, Function.comp_apply, Address.toNat_wordAddr, UInt32.toNat_add,
    UInt32.toNat_ofNat', Lane.toNat_base, Fin.val_ofNat]
  omega

namespace Line
variable {l : Line} {b : Address}

theorem lookup_of_invalid (h : l.valid = Vector.replicate 4 false) : l.lookup b = none := by
  simp [lookup, h]

theorem lookup_of_tag_ne (h : l.tag ≠ b.tag) : l.lookup b = none := if_neg fun k => h k.1

theorem tag_of_lookup {word : UInt32} (h : l.lookup b = some word) : l.tag = b.tag := by
  by_cases ht : l.tag = b.tag
  · exact ht
  · rw [lookup_of_tag_ne ht] at h
    cases h

theorem tag_retag (l : Line) (tag : UInt32) : (l.retag tag).tag = tag := by
  unfold retag
  split
  · assumption
  · rfl

theorem lookup_fill (l : Line) (w : Fin 4) (word : UInt32) (b : Address) :
    (l.fill w word).lookup b = if l.tag = b.tag ∧ w = b.word then some word else l.lookup b := by
  simp only [lookup, fill, Fin.getElem_fin, Vector.getElem_set, ← Fin.ext_iff]
  by_cases ht : l.tag = b.tag <;> by_cases hw : w = b.word <;> simp [ht, hw]

theorem lookup_retag (l : Line) (tag : UInt32) (b : Address) :
    (l.retag tag).lookup b = if tag = b.tag then l.lookup b else none := by
  unfold retag
  split
  · split
    · rfl
    · exact lookup_of_tag_ne (by simp_all)
  · rw [lookup_of_invalid rfl]
    split
    · exact (lookup_of_tag_ne (by simp_all)).symm
    · rfl

def fillAll (l : Line) (word : Fin 4 → UInt32) (ws : List (Fin 4)) : Line :=
  ws.foldl (fun l w => l.fill w (word w)) l

theorem lookup_fillAll_of_not_mem {word : Fin 4 → UInt32} {ws : List (Fin 4)} (h : b.word ∉ ws) :
    (l.fillAll word ws).lookup b = l.lookup b := by
  induction ws generalizing l with
  | nil => rfl
  | cons w ws ih =>
    rw [List.mem_cons, not_or] at h
    refine (ih h.2).trans ?_
    rw [lookup_fill, if_neg fun hw => h.1 hw.2.symm]

theorem lookup_fillAll_of_mem {word : Fin 4 → UInt32} {ws : List (Fin 4)} (h : b.word ∈ ws) :
    (l.fillAll word ws).lookup b = if l.tag = b.tag then some (word b.word) else none := by
  induction ws generalizing l with
  | nil => cases h
  | cons w ws ih =>
    by_cases hlater : b.word ∈ ws
    · exact ih hlater
    · obtain rfl := (List.mem_cons.mp h).resolve_right hlater
      refine (lookup_fillAll_of_not_mem hlater).trans ?_
      rw [lookup_fill]
      by_cases ht : l.tag = b.tag
      · simp [ht]
      · simp [ht, lookup_of_tag_ne ht]

end Line

variable {σ ε : Type} {memory : UInt32 → UInt32}

/-- A source that always answers with the words of a memory. -/
def Serves (memory : UInt32 → UInt32) (read : UInt32 → StateT σ Reported (Except ε UInt32)) : Prop :=
  ∀ addr s, (read addr s).value.1 = .ok (memory addr)

section Refill
variable {read : UInt32 → StateT σ Reported (Except ε UInt32)} (hr : Serves memory read)
include hr

theorem Serves.eq (addr : UInt32) :
    read addr = do
      discard (read addr)
      return .ok (memory addr) := by
  funext s
  refine Reported.eq_of ?_ ?_
  · exact Prod.ext (hr addr s) rfl
  · show _ = (read addr s).record ++ {} ++ {}
    rw [Record.append_empty, Record.append_empty]

/-- Where nothing is refused, every word of a refill is asked for once, in order. -/
theorem refill_eq (a : Address) (ws : List (Fin 4)) (l : Line) :
    refill read a ws l = do
      (ws.map a.wordAddr).forM fun addr => discard (read addr)
      return (none, l.fillAll (fun w => memory (a.wordAddr w)) ws) := by
  induction ws generalizing l with
  | nil => rfl
  | cons w ws ih =>
    rw [refill, hr.eq, bind_assoc, List.map_cons, List.forM, bind_assoc]
    refine bind_congr fun _ => ?_
    rw [pure_bind]
    exact ih _

end Refill

def refilled (memory : UInt32 → UInt32) (c : ICache) (a : Address) : Line :=
  ((c.line a).retag a.tag).fillAll (fun w => memory (a.wordAddr w)) (wordsFrom a.word)

section Fetch
variable {c : ICache} {addr : UInt32}

theorem fetch_hit {word : UInt32} (h : (c.line (.of addr)).lookup (.of addr) = some word)
    (read : UInt32 → StateT σ Reported (Except ε UInt32)) :
    c.fetch addr read = do
      note (.instructionHit (.of addr))
      return (.ok ⟨word, true⟩, c) := by
  unfold fetch
  dsimp only
  rw [h]

theorem lookup_refilled (c : ICache) (a b : Address) : (c.refilled memory a).lookup b =
    if a.tag = b.tag then
      if a.word ≤ b.word then some (memory (a.wordAddr b.word)) else (c.line a).lookup b
    else none := by
  rw [refilled]
  by_cases hw : a.word ≤ b.word
  · rw [Line.lookup_fillAll_of_mem (mem_wordsFrom.mpr hw), Line.tag_retag, if_pos hw]
  · rw [Line.lookup_fillAll_of_not_mem (mt mem_wordsFrom.mp hw), Line.lookup_retag, if_neg hw]

theorem fetch_miss (h : (c.line (.of addr)).lookup (.of addr) = none)
    {read : UInt32 → StateT σ Reported (Except ε UInt32)} (hr : Serves memory read) :
    c.fetch addr read = do
      note (.instructionMiss (.of addr))
      (restOfLine addr).forM fun x => discard (read x)
      return (.ok ⟨memory (Lane.base addr), false⟩,
        c.setLine (.of addr) (c.refilled memory (.of addr))) := by
  have hword : (c.refilled memory (.of addr)).words[(Address.of addr).word] =
      memory (Lane.base addr) := by
    have hlookup : (c.refilled memory (.of addr)).lookup (.of addr) = _ := c.lookup_refilled _ _
    rw [if_pos rfl, if_pos (Fin.le_refl _), Address.wordAddr_word, Line.lookup] at hlookup
    split at hlookup
    · exact Option.some.inj hlookup
    · cases hlookup
  unfold fetch
  dsimp only
  rw [h]
  refine bind_congr fun _ => ?_
  rw [refill_eq hr, wordAddr_wordsFrom, bind_assoc]
  refine bind_congr fun _ => ?_
  rw [pure_bind, ← hword]
  rfl

end Fetch

/-- What can be done to a cache short of isolating it. -/
inductive Operation | fetch (addr : UInt32) | invalidateLine (addr : UInt32) | invalidateAll

/-- The operation leaves no word of a line held: it invalidates the line, or fetches into it from
elsewhere. -/
def Operation.Clears (a : Address) : Operation → Prop
  | .fetch x => (Address.of x).line = a.line ∧ (Address.of x).tag ≠ a.tag
  | .invalidateLine x => (Address.of x).line = a.line
  | .invalidateAll => True

/-- These operations, in order, lead from the empty cache to another one; whatever words they ask for
come from one memory. -/
inductive After (memory : UInt32 → UInt32) : List Operation → ICache → Prop
  | empty : After memory [] {}
  | fetch {σ ε : Type} {read : UInt32 → StateT σ Reported (Except ε UInt32)} {h : List Operation}
      {c : ICache} (addr : UInt32) (s : σ) : Serves memory read → After memory h c →
      After memory (h ++ [.fetch addr]) (c.fetch addr read s).value.1.2
  | invalidateLine {h : List Operation} {c : ICache} (addr : UInt32) : After memory h c →
      After memory (h ++ [.invalidateLine addr]) (c.invalidateLine addr).value
  | invalidateAll {h : List Operation} {c : ICache} : After memory h c →
      After memory (h ++ [.invalidateAll]) c.invalidateAll

/-- A fetch has brought in the word at an address, and nothing has cleared its line since. -/
def Held (h : List Operation) (addr : UInt32) : Prop :=
  ∃ (before : List Operation) (x : UInt32) (since : List Operation),
    h = before ++ .fetch x :: since ∧ x >>> 4 = addr >>> 4 ∧
      (Address.of x).word ≤ (Address.of addr).word ∧ ∀ op ∈ since, ¬op.Clears (.of addr)

/-- The operation is a fetch that asks for the word at an address, if it has to ask for anything. -/
def Operation.Covers (addr : UInt32) : Operation → Prop
  | .fetch x => x >>> 4 = addr >>> 4 ∧ (Address.of x).word ≤ (Address.of addr).word
  | _ => False

theorem not_held_nil (addr : UInt32) : ¬Held [] addr := by
  rintro ⟨before, x, since, hsplit, -⟩
  simp at hsplit

theorem held_concat {h : List Operation} {op : Operation} {addr : UInt32} :
    Held (h ++ [op]) addr ↔ op.Covers addr ∨ Held h addr ∧ ¬op.Clears (.of addr) := by
  constructor
  · rintro ⟨before, x, since, hsplit, hline, hword, hkept⟩
    obtain rfl | ⟨since, last, rfl⟩ := List.eq_nil_or_concat since
    · obtain ⟨-, rfl⟩ := List.append_singleton_inj.mp hsplit
      exact .inl ⟨hline, hword⟩
    · rw [List.concat_eq_append, ← List.cons_append, ← List.append_assoc] at hsplit
      obtain ⟨rfl, rfl⟩ := List.append_singleton_inj.mp hsplit
      refine .inr ⟨⟨before, x, since, rfl, hline, hword, fun op hop => hkept op ?_⟩, hkept _ ?_⟩ <;>
        simp [*]
  · rintro (hcovers | ⟨⟨before, x, since, rfl, hline, hword, hkept⟩, hop⟩)
    · match op, hcovers with
      | .fetch x, ⟨hline, hword⟩ => exact ⟨h, x, [], rfl, hline, hword, nofun⟩
    · refine ⟨before, x, since ++ [op], by simp, hline, hword, fun o ho => ?_⟩
      rcases List.mem_append.mp ho with ho | ho
      · exact hkept o ho
      · rw [List.mem_singleton.mp ho]
        exact hop

/-- Where a word is held, so is the rest of its line. -/
theorem Held.of_covers {h : List Operation} {addr x : UInt32} (hheld : Held h addr)
    (hx : (Operation.fetch addr).Covers x) : Held h x := by
  obtain ⟨before, y, since, rfl, hline, hword, hkept⟩ := hheld
  obtain ⟨hsame, htag⟩ := Address.shift_eq_iff.mp hx.1
  refine ⟨before, y, since, rfl, hline.trans hx.1, Fin.le_trans hword hx.2, fun op hop => ?_⟩
  have hop := hkept op hop
  cases op <;> simp only [Operation.Clears] at hop ⊢ <;> simp_all

theorem line_congr (c : ICache) {a b : Address} (h : a.line = b.line) : c.line a = c.line b := by
  simp only [line]
  congr 1

theorem line_setLine (c : ICache) (a b : Address) (l : Line) :
    (c.setLine a l).line b = if a.line = b.line then l else c.line b := by
  simp only [line, setLine, Fin.getElem_fin, Vector.getElem_set, ← Fin.ext_iff]

theorem line_invalidateAll (c : ICache) (a : Address) :
    c.invalidateAll.line a = (c.line a).invalidate := by
  simp [line, invalidateAll]

/-- The cache holds just the words that its history tells of, as they are in memory. -/
def Mirrors (memory : UInt32 → UInt32) (h : List Operation) (c : ICache) : Prop :=
  ∀ x, Held h x ∧ (c.line (.of x)).lookup (.of x) = some (memory (Lane.base x)) ∨
    ¬Held h x ∧ (c.line (.of x)).lookup (.of x) = none

namespace Mirrors
variable {h : List Operation} {c : ICache} {addr : UInt32}

theorem empty : Mirrors memory [] {} := fun x =>
  .inr ⟨not_held_nil x, Line.lookup_of_invalid (by simp [line])⟩

theorem lookup_of_held (hc : Mirrors memory h c) (hheld : Held h addr) :
    (c.line (.of addr)).lookup (.of addr) = some (memory (Lane.base addr)) :=
  (hc addr).elim And.right fun hno => absurd hheld hno.1

theorem lookup_of_not_held (hc : Mirrors memory h c) (hno : ¬Held h addr) :
    (c.line (.of addr)).lookup (.of addr) = none :=
  (hc addr).elim (fun hheld => absurd hheld.1 hno) And.right

/-- Two words that are held at a time do not clear one another. -/
theorem not_clears (hc : Mirrors memory h c) (hheld : Held h addr) {x : UInt32} (hx : Held h x) :
    ¬(Operation.fetch addr).Clears (.of x) := by
  rintro ⟨hline, htag⟩
  have haddr := Line.tag_of_lookup (hc.lookup_of_held hheld)
  have hx := Line.tag_of_lookup (hc.lookup_of_held hx)
  rw [line_congr c hline] at haddr
  exact htag (haddr.symm.trans hx)

/-- A fetch of a word that is held changes nothing. -/
theorem fetch_held (hc : Mirrors memory h c) (hheld : Held h addr) :
    Mirrors memory (h ++ [.fetch addr]) c := by
  intro x
  rw [held_concat]
  rcases hc x with ⟨hx, hlookup⟩ | ⟨hx, hlookup⟩
  · exact .inl ⟨.inr ⟨hx, hc.not_clears hheld hx⟩, hlookup⟩
  · refine .inr ⟨?_, hlookup⟩
    rintro (hcovers | ⟨hx', -⟩)
    · exact hx (hheld.of_covers hcovers)
    · exact hx hx'

/-- A fetch that asks for its word brings in the rest of the line. -/
theorem fetch_refilled (hc : Mirrors memory h c) (addr : UInt32) :
    Mirrors memory (h ++ [.fetch addr]) (c.setLine (.of addr) (c.refilled memory (.of addr))) := by
  intro x
  rw [held_concat, line_setLine]
  by_cases hline : (Address.of addr).line = (Address.of x).line
  · rw [if_pos hline, lookup_refilled]
    by_cases htag : (Address.of addr).tag = (Address.of x).tag
    · have hsame := Address.shift_eq_iff.mpr ⟨hline, htag⟩
      rw [if_pos htag]
      by_cases hword : (Address.of addr).word ≤ (Address.of x).word
      · rw [if_pos hword, Address.wordAddr_congr hsame, Address.wordAddr_word]
        exact .inl ⟨.inl ⟨hsame, hword⟩, rfl⟩
      · rw [if_neg hword]
        have hcovers : ¬(Operation.fetch addr).Covers x := fun hcovers => hword hcovers.2
        have hclears : ¬(Operation.fetch addr).Clears (.of x) := fun hclears => hclears.2 htag
        simpa [hcovers, hclears, line_congr c hline] using hc x
    · rw [if_neg htag]
      refine .inr ⟨?_, rfl⟩
      rintro (hcovers | ⟨-, hclears⟩)
      · exact htag (Address.shift_eq_iff.mp hcovers.1).2
      · exact hclears ⟨hline, htag⟩
  · rw [if_neg hline]
    have hcovers : ¬(Operation.fetch addr).Covers x := fun hcovers =>
      hline (Address.shift_eq_iff.mp hcovers.1).1
    have hclears : ¬(Operation.fetch addr).Clears (.of x) := fun hclears => hline hclears.1
    simpa [hcovers, hclears] using hc x

theorem invalidateLine (hc : Mirrors memory h c) :
    Mirrors memory (h ++ [.invalidateLine addr]) (c.invalidateLine addr).value := by
  intro x
  show _ ∧ ((c.setLine _ _).line _).lookup _ = _ ∨ _ ∧ ((c.setLine _ _).line _).lookup _ = _
  rw [held_concat, line_setLine]
  by_cases hline : (Address.of addr).line = (Address.of x).line
  · rw [if_pos hline, Line.lookup_of_invalid rfl]
    refine .inr ⟨?_, rfl⟩
    rintro (hcovers | ⟨-, hclears⟩)
    · exact hcovers
    · exact hclears hline
  · rw [if_neg hline]
    have hcovers : ¬(Operation.invalidateLine addr).Covers x := id
    have hclears : ¬(Operation.invalidateLine addr).Clears (.of x) := hline
    simpa [hcovers, hclears] using hc x

theorem invalidateAll (h : List Operation) (c : ICache) :
    Mirrors memory (h ++ [.invalidateAll]) c.invalidateAll := by
  intro x
  rw [held_concat, line_invalidateAll, Line.lookup_of_invalid rfl]
  refine .inr ⟨?_, rfl⟩
  rintro (hcovers | ⟨-, hclears⟩)
  · exact hcovers
  · exact hclears trivial

end Mirrors

theorem After.mirrors {h : List Operation} {c : ICache} (hc : After memory h c) : Mirrors memory h c := by
  induction hc with
  | empty => exact .empty
  | @fetch _ _ read h c addr s hr _ ih =>
    by_cases hheld : Held h addr
    · rw [fetch_hit (ih.lookup_of_held hheld) read]
      exact ih.fetch_held hheld
    · rw [fetch_miss (ih.lookup_of_not_held hheld) hr]
      exact ih.fetch_refilled addr
  | invalidateLine addr _ ih => exact ih.invalidateLine
  | invalidateAll => exact .invalidateAll _ _

end ICache

def Biu.ModeChange (a b : Biu) : Prop := a.is1 ≠ b.is1 ∨ a.ds ≠ b.ds ∨ a.ram ≠ b.ram

theorem Biu.sameMode_iff {a b : Biu} : a.sameMode b ↔ ¬ModeChange a b := by
  simp only [sameMode, ModeChange, Bool.and_eq_true, beq_iff_eq]
  grind

theorem DataArray.lookup_invalidateAll (d : DataArray) (addr : UInt32) :
    d.invalidateAll.lookup addr = none := by
  simp [lookup, invalidateAll]

theorem ICache.lookup_invalidateAll (c : ICache) (a : Address) :
    (c.invalidateAll.line a).lookup a = none := by
  rw [line_invalidateAll]
  exact Line.lookup_of_invalid rfl

/-- Both caches are invalidated on the way from `k` to `k'`, so that no address is found in either. -/
structure Caches.Invalidates (k k' : Caches) : Prop where
  instr : k'.instr = k.instr.invalidateAll
  data : k'.data = k.data.invalidateAll
  /-- To the history of the instruction cache this is one operation more. -/
  after : ∀ {memory : UInt32 → UInt32} {h : List ICache.Operation}, ICache.After memory h k.instr →
    ICache.After memory (h ++ [.invalidateAll]) k'.instr
  misses : ∀ addr, (k'.instr.line (.of addr)).lookup (.of addr) = none
  uncached : ∀ addr, k'.data.lookup addr = none

theorem Caches.setBiu_sameMode {k : Caches} {value : UInt32} (h : ¬k.biu.ModeChange ⟨value⟩) :
    (k.setBiu value).value = { k with biu := ⟨value⟩ } := by
  rw [setBiu, if_pos (Biu.sameMode_iff.mpr h)]
  rfl

theorem Caches.setBiu_modeChange {k : Caches} {value : UInt32} (h : k.biu.ModeChange ⟨value⟩) :
    (k.setBiu value).value = ⟨k.instr.invalidateAll, k.data.invalidateAll, ⟨value⟩⟩ := by
  rw [setBiu, if_neg fun same => Biu.sameMode_iff.mp same h]
  rfl

theorem Caches.invalidates_setBiu {k : Caches} {value : UInt32} (h : k.biu.ModeChange ⟨value⟩) :
    k.Invalidates (k.setBiu value).value := by
  rw [setBiu_modeChange h]
  exact ⟨rfl, rfl, .invalidateAll, fun _ => k.instr.lookup_invalidateAll _, k.data.lookup_invalidateAll⟩

namespace ICache
variable {memory : UInt32 → UInt32}

/-- Whatever was done to the cache, a fetch gives the word of memory. It is a hit where the history holds
the word, and then asks for nothing; else it asks for the word and the rest of its line, in order. A write
of the control word that changes a mode invalidates both caches, and any other leaves them alone. -/
theorem transparent :
    (∀ {h : List Operation} {c : ICache}, After memory h c → ∀ {σ ε : Type}
      {read : UInt32 → StateT σ Reported (Except ε UInt32)}, Serves memory read → ∀ addr,
      ∃ (hit : Bool) (c' : ICache), (hit ↔ Held h addr) ∧ c.fetch addr read = do
        note (if hit then .instructionHit (.of addr) else .instructionMiss (.of addr))
        (if hit then [] else restOfLine addr).forM fun x => discard (read x)
        return (.ok ⟨memory (Lane.base addr), hit⟩, c')) ∧
    ∀ (k : Caches) (value : UInt32), (k.setBiu value).value.biu = ⟨value⟩ ∧
      (k.biu.ModeChange ⟨value⟩ → k.Invalidates (k.setBiu value).value) ∧
      (¬k.biu.ModeChange ⟨value⟩ → (k.setBiu value).value = { k with biu := ⟨value⟩ }) := by
  refine ⟨fun {h c} hc σ ε read hr addr => ?_,
    fun k value => ⟨?_, Caches.invalidates_setBiu, Caches.setBiu_sameMode⟩⟩
  · by_cases hheld : Held h addr
    · refine ⟨true, c, by simp [hheld], fetch_hit (hc.mirrors.lookup_of_held hheld) read⟩
    · exact ⟨false, _, by simp [hheld], fetch_miss (hc.mirrors.lookup_of_not_held hheld) hr⟩
  · by_cases hmode : k.biu.ModeChange ⟨value⟩
    · rw [Caches.setBiu_modeChange hmode]
    · rw [Caches.setBiu_sameMode hmode]

def inverted (addr : UInt32) : UInt32 := ~~~addr

/-- A source of these words that keeps a list of what it was asked. -/
def listing (addr : UInt32) : StateT (List UInt32) Reported (Except Unit UInt32) := do
  modify (· ++ [addr])
  return .ok (inverted addr)

/-- A line that was fetched from its third word on, and another one that was invalidated since. -/
def halfFetched : ICache :=
  ((({} : ICache).fetch 0x1008 listing []).value.1.2.invalidateLine 0x2010).value

/-- The half-fetched line, and a word in the data array. -/
def partlyCached : Caches where
  instr := halfFetched
  data := ({} : DataArray).fill 0x100 0xabcd

theorem transparent_halfFetched :
    After inverted [.fetch 0x1008, .invalidateLine 0x2010] halfFetched ∧ Serves inverted listing ∧
      (∃ c, (halfFetched.fetch 0x100e listing []).value = ((.ok ⟨inverted 0x100c, true⟩, c), [])) ∧
      (∃ c, (halfFetched.fetch 0x1004 listing []).value =
        ((.ok ⟨inverted 0x1004, false⟩, c), [0x1004, 0x1008, 0x100c])) ∧
      partlyCached.data.lookup 0x100 = some 0xabcd ∧
      partlyCached.biu.ModeChange ⟨0x800⟩ ∧ partlyCached.Invalidates (partlyCached.setBiu 0x800).value ∧
      ¬partlyCached.biu.ModeChange ⟨0x1⟩ ∧
      (partlyCached.setBiu 0x1).value = { partlyCached with biu := ⟨0x1⟩ } := by
  have hserves : Serves inverted listing := fun _ _ => rfl
  have hafter : After inverted [.fetch 0x1008, .invalidateLine 0x2010] halfFetched :=
    .invalidateLine 0x2010 (.fetch 0x1008 [] hserves .empty)
  obtain ⟨hit, c, hhit, hfetch⟩ := transparent.1 hafter hserves 0x100e
  obtain ⟨hit', c', hhit', hfetch'⟩ := transparent.1 hafter hserves 0x1004
  have hheld : Held [.fetch 0x1008, .invalidateLine 0x2010] 0x100e :=
    ⟨[], 0x1008, [.invalidateLine 0x2010], rfl, by decide, by decide, by
      simp [Operation.Clears]; decide⟩
  have hno : ¬Held [.fetch 0x1008, .invalidateLine 0x2010] 0x1004 := by
    rw [show ([.fetch 0x1008, .invalidateLine 0x2010] : List Operation) =
      [] ++ [.fetch 0x1008] ++ [.invalidateLine 0x2010] from rfl, held_concat, held_concat]
    rintro (hcovers | ⟨⟨-, hword⟩ | ⟨hnil, -⟩, -⟩)
    · exact hcovers
    · exact absurd hword (by decide)
    · exact not_held_nil 0x1004 hnil
  obtain rfl : hit = true := hhit.mpr hheld
  obtain rfl : hit' = false := by simpa [hno] using hhit'
  have hchange : partlyCached.biu.ModeChange ⟨0x800⟩ := .inl (by decide)
  have hsame : ¬partlyCached.biu.ModeChange ⟨0x1⟩ := Biu.sameMode_iff.mp (by decide)
  have hcached : partlyCached.data.lookup 0x100 = some 0xabcd := by
    simp [partlyCached, DataArray.lookup, DataArray.fill, DataArray.word]
  refine ⟨hafter, hserves, ⟨c, ?_⟩, ⟨c', ?_⟩, hcached, hchange,
    ((@transparent inverted).2 partlyCached 0x800).2.1 hchange, hsame,
    ((@transparent inverted).2 partlyCached 0x1).2.2 hsame⟩
  · rw [hfetch]
    rfl
  · rw [hfetch']
    rfl

end ICache
end R3000
