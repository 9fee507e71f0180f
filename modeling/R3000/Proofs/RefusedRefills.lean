import R3000.Proofs.InstructionCache
import R3000.Proofs.Motion

/-! # Refused refills

A refill that is refused ends at the refused word. The words before it are in the line by then and stay;
the refused word and those after it are left as the refill found them. So a word that an earlier fetch of
the same line brought in can still be hit, although the refill that was to bring it in again has failed. -/
namespace R3000.ICache
variable {σ ε : Type} {read : UInt32 → StateT σ Reported (Except ε UInt32)} {word : UInt32 → UInt32}
  {s s' s'' : σ} {e : ε}

/-- The word that a fetch of the address hits, if it hits one. -/
def held (c : ICache) (addr : UInt32) : Option UInt32 := (c.line (.of addr)).lookup (.of addr)

/-- A source answers for each of these addresses, one after the other, with these words. -/
inductive Answered (read : UInt32 → StateT σ Reported (Except ε UInt32)) (word : UInt32 → UInt32) :
    List UInt32 → σ → σ → Prop
  | nil {s : σ} : Answered read word [] s s
  | cons {addr : UInt32} {addrs : List UInt32} {s s' s'' : σ} :
      (read addr s).value = (.ok (word addr), s') → Answered read word addrs s' s'' →
      Answered read word (addr :: addrs) s s''

namespace Address

/-- An address falls into a word of a line. -/
theorem base_eq_wordAddr {x addr : UInt32} {w : Fin 4} :
    Lane.base x = (of addr).wordAddr w ↔ x >>> 4 = addr >>> 4 ∧ (of x).word = w := by
  constructor
  · intro h
    have hnat := congrArg UInt32.toNat h
    rw [Lane.toNat_base, toNat_wordAddr] at hnat
    refine ⟨?_, ?_⟩
    · rw [shift_eq_iff, ← UInt32.toNat_inj, Fin.ext_iff, toNat_tag, toNat_tag, val_line, val_line]
      omega
    · rw [Fin.ext_iff, val_word]
      omega
  · rintro ⟨hline, rfl⟩
    rw [← wordAddr_congr hline, wordAddr_word]

theorem base_mem_map {x addr : UInt32} {ws : List (Fin 4)} :
    Lane.base x ∈ ws.map (of addr).wordAddr ↔ x >>> 4 = addr >>> 4 ∧ (of x).word ∈ ws := by
  rw [List.mem_map]
  constructor
  · rintro ⟨w, hw, hx⟩
    obtain ⟨hline, rfl⟩ := base_eq_wordAddr.mp hx.symm
    exact ⟨hline, hw⟩
  · rintro ⟨hline, hw⟩
    exact ⟨_, hw, (base_eq_wordAddr.mpr ⟨hline, rfl⟩).symm⟩

end Address

/-- The line has just the words that were answered for before the refusal. -/
theorem refill_refused {a : Address} {ws rest : List (Fin 4)} {k : Fin 4} {l : Line}
    (hasked : Answered read word (ws.map a.wordAddr) s s')
    (hbad : (read (a.wordAddr k) s').value = (.error e, s'')) :
    (refill read a (ws ++ k :: rest) l s).value =
      ((some e, l.fillAll (fun w => word (a.wordAddr w)) ws), s'') := by
  induction ws generalizing s l with
  | nil =>
    cases hasked
    exact value_bind_of_value hbad _
  | cons w ws ih =>
    cases hasked with
    | cons hw hws =>
      exact (value_bind_of_value hw _).trans (ih hws)

def partlyRefilled (word : UInt32 → UInt32) (c : ICache) (a : Address) (ws : List (Fin 4)) : Line :=
  ((c.line a).retag a.tag).fillAll (fun w => word (a.wordAddr w)) ws

theorem held_partlyRefilled_of_mem {c : ICache} {addr x : UInt32} {ws : List (Fin 4)}
    (hline : (Address.of addr).line = (Address.of x).line) (hw : (Address.of x).word ∈ ws) :
    (c.setLine (.of addr) (c.partlyRefilled word (.of addr) ws)).held x =
      if (Address.of addr).tag = (Address.of x).tag then some (word (Lane.base x)) else none := by
  rw [held, line_setLine, if_pos hline, partlyRefilled, Line.lookup_fillAll_of_mem hw, Line.tag_retag]
  split
  · next htag =>
    rw [Address.base_eq_wordAddr.mpr ⟨(Address.shift_eq_iff.mpr ⟨hline, htag⟩).symm, rfl⟩]
  · rfl

theorem held_partlyRefilled_of_not_mem {c : ICache} {addr x : UInt32} {ws : List (Fin 4)}
    (hline : (Address.of addr).line = (Address.of x).line) (hw : (Address.of x).word ∉ ws) :
    (c.setLine (.of addr) (c.partlyRefilled word (.of addr) ws)).held x =
      if (Address.of addr).tag = (Address.of x).tag then c.held x else none := by
  rw [held, line_setLine, if_pos hline, partlyRefilled, Line.lookup_fillAll_of_not_mem hw,
    Line.lookup_retag, held, line_congr c hline]

/-- A fetch that has to ask for its word and is refused one of the line fails with this error. The words
that were answered for before are held with the answers. From the refused word on, and before the word of
the fetch, the words of the line are held just where they were held before the fetch, under the same tag.
No word of another tag is held in the line any longer, and the other lines are as they were. -/
theorem fetch_refused {c : ICache} {addr bad : UInt32} {asked rest : List UInt32}
    (hmiss : c.held addr = none) (hline : restOfLine addr = asked ++ bad :: rest)
    (hasked : Answered read word asked s s') (hbad : (read bad s').value = (.error e, s'')) :
    ∃ c', (c.fetch addr read s).value = ((.error e, c'), s'') ∧
      (∀ x, Lane.base x ∈ asked → c'.held x = some (word (Lane.base x))) ∧
      (∀ x, Lane.base x ∈ bad :: rest → c'.held x = c.held x) ∧
      ∀ x, Lane.base x ∉ restOfLine addr → c'.held x =
        if (Address.of addr).line = (Address.of x).line ∧ (Address.of addr).tag ≠ (Address.of x).tag
          then none else c.held x := by
  rw [← wordAddr_wordsFrom, List.map_eq_append_iff] at hline
  obtain ⟨ws, later, hsplit, rfl, hlater⟩ := hline
  obtain ⟨k, later, rfl, rfl, rfl⟩ := List.map_eq_cons_iff.mp hlater
  have hnodup : (wordsFrom (Address.of addr).word).Nodup := (List.nodup_finRange 4).filter _
  rw [hsplit, List.nodup_append] at hnodup
  have hfetch : (c.fetch addr read s).value =
      ((.error e, c.setLine (.of addr) (c.partlyRefilled word (.of addr) ws)), s'') := by
    have hrefill : (refill read (.of addr) (ws ++ k :: later)
        ((c.line (.of addr)).retag (Address.of addr).tag) s).value =
          ((some e, c.partlyRefilled word (.of addr) ws), s'') :=
      refill_refused hasked hbad
    unfold fetch
    dsimp only
    rw [show (c.line (.of addr)).lookup (.of addr) = none from hmiss, hsplit]
    exact (value_bind_of_value rfl _).trans (value_bind_of_value hrefill _)
  refine ⟨_, hfetch, fun x hx => ?_, fun x hx => ?_, fun x hx => ?_⟩
  · obtain ⟨hsame, hw⟩ := Address.base_mem_map.mp hx
    obtain ⟨hline, htag⟩ := Address.shift_eq_iff.mp hsame
    rw [held_partlyRefilled_of_mem hline.symm hw, if_pos htag.symm]
  · rw [← List.map_cons] at hx
    obtain ⟨hsame, hw⟩ := Address.base_mem_map.mp hx
    obtain ⟨hline, htag⟩ := Address.shift_eq_iff.mp hsame
    rw [held_partlyRefilled_of_not_mem hline.symm fun h => hnodup.2.2 _ h _ hw rfl, if_pos htag.symm]
  · rw [← wordAddr_wordsFrom, hsplit, Address.base_mem_map] at hx
    by_cases hline : (Address.of addr).line = (Address.of x).line
    · by_cases hw : (Address.of x).word ∈ ws
      · have htag : (Address.of addr).tag ≠ (Address.of x).tag := fun htag =>
          hx ⟨(Address.shift_eq_iff.mpr ⟨hline, htag⟩).symm, List.mem_append_left _ hw⟩
        rw [held_partlyRefilled_of_mem hline hw, if_neg htag, if_pos ⟨hline, htag⟩]
      · rw [held_partlyRefilled_of_not_mem hline hw]
        by_cases htag : (Address.of addr).tag = (Address.of x).tag
        · rw [if_pos htag, if_neg fun h => h.2 htag]
        · rw [if_neg htag, if_pos ⟨hline, htag⟩]
    · rw [held, line_setLine, if_neg hline, if_neg fun h => hline h.1]
      rfl

/-- A source that refuses one word, and answers for each other one with the complement of its address. -/
def refusing (bad addr : UInt32) : StateT Unit Reported (Except UInt32 UInt32) :=
  return if addr = bad then .error bad else .ok (inverted addr)

def endFetched : ICache := (({} : ICache).fetch 0x1008 (refusing 0) ()).value.1.2

theorem fetch_refused_endFetched :
    endFetched.held 0x1002 = none ∧ restOfLine 0x1002 = [0x1000] ++ 0x1004 :: [0x1008, 0x100c] ∧
      Answered (refusing 0x1004) inverted [0x1000] () () ∧
      (refusing 0x1004 0x1004 ()).value = (.error 0x1004, ()) ∧
      ∃ c', (endFetched.fetch 0x1002 (refusing 0x1004) ()).value = ((.error 0x1004, c'), ()) ∧
        c'.held 0x1003 = some (inverted 0x1000) ∧ c'.held 0x1004 = none ∧
        c'.held 0x1008 = some (inverted 0x1008) ∧ c'.held 0x2008 = none := by
  have hmiss : endFetched.held 0x1002 = none := by decide +kernel
  have hline : restOfLine 0x1002 = [0x1000] ++ 0x1004 :: [0x1008, 0x100c] := by decide
  have hasked : Answered (refusing 0x1004) inverted [0x1000] () () := .cons rfl .nil
  have hbad : (refusing 0x1004 0x1004 ()).value = (.error 0x1004, ()) := rfl
  obtain ⟨c', hfetch, hfilled, hlater, helse⟩ := fetch_refused hmiss hline hasked hbad
  refine ⟨hmiss, hline, hasked, hbad, c', hfetch, hfilled 0x1003 (by decide), ?_, ?_, ?_⟩
  · rw [hlater 0x1004 (by decide)]
    decide +kernel
  · rw [hlater 0x1008 (by decide)]
    decide +kernel
  · exact helse 0x2008 (by decide)

/-- After the refusal of its second word a line can still be hit from its third word on. -/
theorem stale_after_refusal :
    (endFetched.fetch 0x1000 (refusing 0x1004) ()).value.1.1 = .error 0x1004 ∧
      ((endFetched.fetch 0x1000 (refusing 0x1004) ()).value.1.2.fetch 0x1008
        (refusing 0x1004) ()).value.1.1 = .ok ⟨inverted 0x1008, true⟩ :=
  ⟨rfl, rfl⟩

end R3000.ICache
