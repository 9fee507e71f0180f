import R3000.Proofs.SerialTicks

/-! # The schedule of a serial port

The characters that are written to a port go out one after another, each as soon as the one before it has
gone, one bit in every period of the bit clock; with every bit that goes out one comes in. -/
namespace R3000.Serial

/-- When the characters that are written start to go out: each of them when it is written, or when the
one before it has gone, which takes `d` cycles. The first may start when `free` cycles have passed. -/
def starts (d : Nat) : Nat → List (Nat × UInt8) → List (Nat × UInt8)
  | _, [] => []
  | free, (written, b) :: sent => (max written free, b) :: starts d (max written free + d) sent

/-- The `n` lowest bits of a character that starts at some time, lowest first, each with the time when it
is out: a period later than the one before it. -/
def bits (n period : Nat) (x : Nat × UInt8) : List (Nat × Bool) :=
  (List.range n).map fun j => (x.1 + (j + 1) * period, x.2.toNat.testBit j)

section Schedule
variable {d free n period : Nat}

def freed (d free : Nat) (sent : List (Nat × UInt8)) : Nat :=
  ((starts d free sent).getLast?).elim free (·.1 + d)

theorem starts_concat (d free : Nat) (sent : List (Nat × UInt8)) (w : Nat) (b : UInt8) :
    starts d free (sent ++ [(w, b)]) = starts d free sent ++ [(max w (freed d free sent), b)] := by
  induction sent generalizing free with
  | nil => rfl
  | cons x sent ih =>
    simp only [List.cons_append, starts, ih, freed]
    cases starts d (max x.1 free + d) sent <;> simp [List.getLast?_cons]

theorem freed_le {sent : List (Nat × UInt8)} {time : Nat} (hfree : free ≤ time)
    (h : ∀ x ∈ starts d free sent, x.1 + d ≤ time) : freed d free sent ≤ time := by
  simp only [freed]
  cases hlast : (starts d free sent).getLast? with
  | none => exact hfree
  | some x => exact h x (List.mem_of_getLast? hlast)

theorem snd_starts (d free : Nat) (sent : List (Nat × UInt8)) :
    (starts d free sent).map (·.2) = sent.map (·.2) := by
  induction sent generalizing free with
  | nil => rfl
  | cons x sent ih => simp [starts, ih]

/-- Characters do not overlap. -/
theorem pairwise_starts (d free : Nat) (sent : List (Nat × UInt8)) :
    (starts d free sent).Pairwise (fun x y => x.1 + d ≤ y.1) ∧
      ∀ x ∈ starts d free sent, free ≤ x.1 := by
  induction sent generalizing free with
  | nil => exact ⟨.nil, nofun⟩
  | cons x sent ih =>
    obtain ⟨hpairs, hfree⟩ := ih (max x.1 free + d)
    refine ⟨.cons hfree hpairs, fun y hy => ?_⟩
    cases hy with
    | head => exact Nat.le_max_right _ _
    | tail _ hy =>
      have := hfree y hy
      omega

theorem length_bits (x : Nat × UInt8) : (bits n period x).length = n := by simp [bits]

theorem bits_succ (j : Nat) (x : Nat × UInt8) :
    bits (j + 1) period x = bits j period x ++ [(x.1 + (j + 1) * period, x.2.toNat.testBit j)] := by
  simp [bits, List.range_succ]

/-- The first bits of a character, and the others. -/
theorem bits_split {j : Nat} (hj : j ≤ n) (x : Nat × UInt8) :
    bits n period x = bits j period x ++
      (List.range (n - j)).map fun i => (x.1 + (j + i + 1) * period, x.2.toNat.testBit (j + i)) := by
  conv => lhs; rw [← Nat.add_sub_of_le hj]
  simp [bits, List.range_add]

/-- What has gone of a character, where `j` bits have. -/
theorem due_bits {time j : Nat} {x : Nat × UInt8} (hj : j ≤ n)
    (hout : 0 < j → x.1 + j * period ≤ time) (hleft : j < n → time < x.1 + (j + 1) * period) :
    (bits n period x).filter (·.1 ≤ time) = bits j period x := by
  have hgone : ∀ m ∈ bits j period x, decide (m.1 ≤ time) = true := by
    intro m hm
    obtain ⟨i, hi, rfl⟩ := List.mem_map.mp hm
    have hi := List.mem_range.mp hi
    have hmul := Nat.mul_le_mul_right period hi
    simp only [decide_eq_true_eq]
    exact Nat.le_trans (Nat.add_le_add_left hmul _) (hout (Nat.zero_lt_of_lt hi))
  have hrest : ∀ m ∈ (List.range (n - j)).map fun i =>
      (x.1 + (j + i + 1) * period, x.2.toNat.testBit (j + i)), ¬decide (m.1 ≤ time) = true := by
    intro m hm
    obtain ⟨i, hi, rfl⟩ := List.mem_map.mp hm
    have hi := List.mem_range.mp hi
    have hmul := Nat.mul_le_mul_right period (show j + 1 ≤ j + i + 1 by omega)
    have hleft := hleft (by omega)
    simp only [decide_eq_true_eq]
    omega
  rw [bits_split hj, List.filter_append, List.filter_eq_self.mpr hgone, List.filter_eq_nil_iff.mpr hrest,
    List.append_nil]

/-- What has gone of characters that have gone, or not started. -/
theorem due_all {time : Nat} {l : List (Nat × UInt8)} (h : ∀ x ∈ l, x.1 + n * period ≤ time) :
    (l.flatMap (bits n period)).filter (·.1 ≤ time) = l.flatMap (bits n period) := by
  induction l with
  | nil => rfl
  | cons x l ih =>
    rw [List.flatMap_cons, List.filter_append, ih fun y hy => h y (List.mem_cons_of_mem x hy),
      due_bits (Nat.le_refl n) (fun _ => h x List.mem_cons_self) fun hn => absurd hn (Nat.lt_irrefl n)]

theorem length_flatMap_bits (n period : Nat) (l : List (Nat × UInt8)) :
    (l.flatMap (bits n period)).length = n * l.length := by
  induction l with
  | nil => rfl
  | cons x l ih =>
    rw [List.flatMap_cons, List.length_append, ih, length_bits, List.length_cons]
    ring

theorem snd_flatMap_bits (n period : Nat) (l : List (Nat × UInt8)) :
    (l.flatMap (bits n period)).map (·.2) =
      (l.map (·.2)).flatMap fun b => (List.range n).map b.toNat.testBit := by
  induction l with
  | nil => rfl
  | cons x l ih =>
    rw [List.flatMap_cons, List.map_append, ih, List.map_cons, List.flatMap_cons]
    simp [bits]

end Schedule

namespace Tick

def mark (t : Tick) : Nat × Bool := (t.time, t.level)

end Tick

theorem ofDigits_concat (l : List Bool) (b : Bool) :
    Nat.ofDigits 2 ((l ++ [b]).map Bool.toNat) =
      Nat.ofDigits 2 (l.map Bool.toNat) + 2 ^ l.length * b.toNat := by
  rw [List.map_append, Nat.ofDigits_append, List.length_map]
  simp

theorem ofDigits_lt (l : List Bool) : Nat.ofDigits 2 (l.map Bool.toNat) < 2 ^ l.length := by
  have h := Nat.ofDigits_lt_base_pow_length (b := 2) (l := l.map Bool.toNat) (by decide) fun d hd => by
    obtain ⟨b, -, rfl⟩ := List.mem_map.mp hd
    exact Bool.toNat_lt b
  rwa [List.length_map] at h

/-- Of every tick with the ticks before it: with the last of the `n` bits of a character one has been
received, made up of the levels of the data input at these `n` ticks, and with the other bits none. -/
def Received (n : Nat) (ticks : List Tick) : Prop :=
  ∀ l t, l ++ [t] <+: ticks →
    if n ∣ l.length + 1 then
      t.reaction.Completes t.before
        (Nat.ofDigits 2 ((((l ++ [t]).map Tick.sampled).drop (l.length + 1 - n)).map Bool.toNat))
    else t.reaction.Continues t.before

theorem Received.concat {n : Nat} {ticks : List Tick} {t : Tick} (h : Received n ticks)
    (ht : if n ∣ ticks.length + 1 then
      t.reaction.Completes t.before
        (Nat.ofDigits 2 ((((ticks ++ [t]).map Tick.sampled).drop (ticks.length + 1 - n)).map Bool.toNat))
      else t.reaction.Continues t.before) : Received n (ticks ++ [t]) := by
  intro l u hl
  rcases List.prefix_concat_iff.mp hl with heq | hl
  · obtain ⟨rfl, hu⟩ := List.append_inj' heq rfl
    cases hu
    exact ht
  · exact h l u hl

end R3000.Serial
