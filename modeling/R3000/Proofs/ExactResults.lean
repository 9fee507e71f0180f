import R3000.MulDiv.Unit

/-! # Products, quotients and remainders

What an operation leaves in HI and LO is told in numbers here, those that the words stand for: signed or not, as
the operation takes its operands. A product fills both words. A division leaves the quotient that is cut off
towards zero, and its remainder; what it leaves where there is no such quotient in range is told apart. -/
namespace R3000

namespace Word

theorem signed_eq (w : UInt32) :
    signed w = if w.toNat < 0x80000000 then (w.toNat : Int) else w.toNat - 0x100000000 := by
  have h : signed w = _ := BitVec.toInt_eq_toNat_cond w.toBitVec
  rw [h]
  show (if 2 * w.toNat < 2 ^ 32 then _ else _) = _
  exact ite_congr (propext (by omega)) (fun _ => rfl) fun _ => rfl

theorem signed_inj {v w : UInt32} : signed v = signed w ↔ v = w := by
  refine ⟨fun h => ?_, congrArg signed⟩
  have hv := v.toNat_lt
  have hw := w.toNat_lt
  rw [signed_eq, signed_eq] at h
  rw [← UInt32.toNat_inj]
  split at h <;> split at h <;> omega

/-- Words are multiplied and added as the numbers are that they stand for, but for multiples of 2³². -/
theorem signed_mul_add (a b c : UInt32) :
    signed (a * b + c) = Int.bmod (signed a * signed b + signed c) 0x100000000 := by
  simp only [signed]
  rw [UInt32.toInt32_add, UInt32.toInt32_mul, Int32.toInt_add, Int32.toInt_mul, Int.bmod_add_bmod]

theorem bmod_signed (w : UInt32) : Int.bmod (signed w) 0x100000000 = signed w := by
  have hlo := w.toInt32.le_toInt
  have hhi := w.toInt32.toInt_lt
  exact Int.bmod_eq_of_le (by simp only [signed]; omega) (by simp only [signed]; omega)

end Word

namespace MulDivOp

/-- The number that a word stands for to an operation. -/
def reading (op : MulDivOp) (w : UInt32) : Int :=
  match op with
  | .mult | .div => Word.signed w
  | .multu | .divu => w.toNat

/-- The one quotient of signed words that is no signed word. -/
def Overflows (op : MulDivOp) (lhs rhs : UInt32) : Prop := op = .div ∧ lhs = 0x80000000 ∧ rhs = 0xffffffff

def Multiplied (op : MulDivOp) (lhs rhs : UInt32) (r : UInt32 × UInt32) : Prop :=
  op.reading r.1 * 0x100000000 + r.2.toNat = op.reading lhs * op.reading rhs

structure Quotient (op : MulDivOp) (lhs rhs : UInt32) (r : UInt32 × UInt32) : Prop where
  whole : op.reading r.2 * op.reading rhs + op.reading r.1 = op.reading lhs
  small : (op.reading r.1).natAbs < (op.reading rhs).natAbs
  sign : op.reading r.1 = 0 ∨ (op.reading r.1).sign = (op.reading lhs).sign

structure Divided (op : MulDivOp) (lhs rhs : UInt32) (r : UInt32 × UInt32) : Prop where
  /-- This holds of the one that overflows, too. -/
  wrapped : rhs ≠ 0 → r.2 * rhs + r.1 = lhs
  exact : rhs ≠ 0 → ¬op.Overflows lhs rhs → op.Quotient lhs rhs r
  overflow : op.Overflows lhs rhs → r = (0, 0x80000000)
  zero : rhs = 0 → r = (lhs, if op.reading lhs < 0 then 1 else 0xffffffff)

def Answers (op : MulDivOp) : UInt32 → UInt32 → UInt32 × UInt32 → Prop :=
  match op with
  | .mult | .multu => op.Multiplied
  | .div | .divu => op.Divided

section Products

theorem toNat_halves (p : UInt64) : (halves p).1.toNat = p.toNat / 0x100000000 ∧
    (halves p).2.toNat = p.toNat % 0x100000000 := by
  have hlt := p.toNat_lt
  simp only [halves]
  rw [UInt64.toNat_toUInt32, UInt64.toNat_toUInt32, UInt64.toNat_shiftRight, Nat.shiftRight_eq_div_pow]
  exact ⟨Nat.mod_eq_of_lt (Nat.div_lt_of_lt_mul hlt), rfl⟩

/-- The high half of a signed double word has its sign. -/
theorem signed_halves (p : Int64) :
    Word.signed (halves p.toUInt64).1 * 0x100000000 + (halves p.toUInt64).2.toNat = p.toInt := by
  have hlt := p.toUInt64.toNat_lt
  have hp : p.toInt = _ := BitVec.toInt_eq_toNat_cond p.toBitVec
  have hnat : p.toBitVec.toNat = p.toUInt64.toNat := rfl
  obtain ⟨hhigh, hlow⟩ := toNat_halves p.toUInt64
  rw [hp, hnat, Word.signed_eq, hhigh, hlow]
  split <;> split <;> omega

/-- No product of two signed words is too large for a double word. -/
theorem toInt_product (a b : UInt32) :
    (a.toInt32.toInt64 * b.toInt32.toInt64).toInt = Word.signed a * Word.signed b := by
  have hword : ∀ w : UInt32, (Word.signed w).natAbs ≤ 0x80000000 := fun w => by
    have hlo := w.toInt32.le_toInt
    have hhi := w.toInt32.toInt_lt
    simp only [Word.signed]
    omega
  have hproduct := Nat.mul_le_mul (hword a) (hword b)
  rw [← Int.natAbs_mul] at hproduct
  rw [Int64.toInt_mul, Int32.toInt_toInt64, Int32.toInt_toInt64]
  show Int.bmod (Word.signed a * Word.signed b) _ = _
  exact Int.bmod_eq_of_le (by omega) (by omega)

theorem toNat_product (a b : UInt32) : (a.toUInt64 * b.toUInt64).toNat = a.toNat * b.toNat := by
  have hlt : a.toNat * b.toNat < 0x10000000000000000 := Nat.mul_lt_mul_of_lt_of_lt a.toNat_lt b.toNat_lt
  rw [UInt64.toNat_mul, UInt32.toNat_toUInt64, UInt32.toNat_toUInt64]
  exact Nat.mod_eq_of_lt hlt

theorem multiplied_signed (lhs rhs : UInt32) : Multiplied .mult lhs rhs (compute .mult lhs rhs) :=
  (signed_halves _).trans (toInt_product lhs rhs)

theorem multiplied_unsigned (lhs rhs : UInt32) : Multiplied .multu lhs rhs (compute .multu lhs rhs) := by
  obtain ⟨hhigh, hlow⟩ := toNat_halves (lhs.toUInt64 * rhs.toUInt64)
  have hcompute : compute .multu lhs rhs = halves (lhs.toUInt64 * rhs.toUInt64) := rfl
  simp only [Multiplied, reading]
  rw [hcompute, hhigh, hlow, toNat_product, ← Int.natCast_mul]
  omega

end Products

section Quotients
variable {lhs rhs : UInt32}

/-- Signed words are divided as the numbers are that they stand for. -/
theorem signed_divide (hover : ¬Overflows .div lhs rhs) :
    Word.signed (lhs.toInt32 / rhs.toInt32).toUInt32 = (Word.signed lhs).tdiv (Word.signed rhs) ∧
      Word.signed (lhs.toInt32 % rhs.toInt32).toUInt32 = (Word.signed lhs).tmod (Word.signed rhs) := by
  simp only [Word.signed, Int32.toInt32_toUInt32]
  refine ⟨?_, Int32.toInt_mod _ _⟩
  -- the library rules the overflow out by one operand at a time
  by_cases hl : lhs = 0x80000000
  · have hr : rhs.toInt32 ≠ -1 := fun h => hover ⟨rfl, hl, Word.signed_inj.mp (congrArg Int32.toInt h)⟩
    exact Int32.toInt_div_of_ne_right _ _ hr
  · have hmin : lhs.toInt32 ≠ Int32.minValue := fun h => hl (Word.signed_inj.mp (congrArg Int32.toInt h))
    exact Int32.toInt_div_of_ne_left _ _ hmin

theorem compute_signed (h : rhs ≠ 0) (hover : ¬Overflows .div lhs rhs) : compute .div lhs rhs =
    ((lhs.toInt32 % rhs.toInt32).toUInt32, (lhs.toInt32 / rhs.toInt32).toUInt32) := by
  have hwords : ¬(lhs.toInt32 = Int32.minValue ∧ rhs.toInt32 = -1) := fun ⟨hl, hr⟩ =>
    hover ⟨rfl, congrArg Int32.toUInt32 hl, congrArg Int32.toUInt32 hr⟩
  simp only [compute, result]
  rw [if_neg h, if_neg hwords]
  rfl

theorem compute_unsigned (h : rhs ≠ 0) : compute .divu lhs rhs = (lhs % rhs, lhs / rhs) := by
  simp only [compute, result]
  rw [if_neg h]
  rfl

theorem quotient_signed (h : rhs ≠ 0) (hover : ¬Overflows .div lhs rhs) :
    Quotient .div lhs rhs (compute .div lhs rhs) := by
  have hpos : 0 < (Word.signed rhs).natAbs :=
    Int.natAbs_pos.mpr fun hzero => h (Word.signed_inj.mp hzero)
  obtain ⟨hquotient, hremainder⟩ := signed_divide hover
  rw [compute_signed h hover]
  constructor <;> simp only [reading, hquotient, hremainder]
  · exact Int.tdiv_mul_add_tmod _ _
  · rw [Int.natAbs_tmod]
    exact Nat.mod_lt _ hpos
  · by_cases hdvd : Word.signed rhs ∣ Word.signed lhs
    · exact .inl (Int.tmod_eq_zero_of_dvd hdvd)
    · rw [Int.sign_tmod, if_neg hdvd]
      exact .inr rfl

theorem quotient_unsigned (h : rhs ≠ 0) : Quotient .divu lhs rhs (compute .divu lhs rhs) := by
  have hpos : 0 < rhs.toNat := Nat.pos_of_ne_zero fun hzero => h (UInt32.toNat_inj.mp hzero)
  rw [compute_unsigned h]
  constructor <;> simp only [reading, UInt32.toNat_mod, UInt32.toNat_div]
  · exact_mod_cast Nat.div_add_mod' lhs.toNat rhs.toNat
  · exact Nat.mod_lt _ hpos
  · obtain hzero | hrest := Nat.eq_zero_or_pos (lhs.toNat % rhs.toNat)
    · exact .inl (congrArg Nat.cast hzero)
    · have hlhs : 0 < lhs.toNat := Nat.lt_of_lt_of_le hrest (Nat.mod_le _ _)
      rw [Int.sign_eq_one_of_pos (Int.natCast_pos.mpr hrest), Int.sign_eq_one_of_pos (Int.natCast_pos.mpr hlhs)]
      exact .inr rfl

/-- An exact quotient is one of words as well. -/
theorem Quotient.wrapped_signed {r : UInt32 × UInt32} (h : Quotient .div lhs rhs r) :
    r.2 * rhs + r.1 = lhs := by
  have hwhole : Word.signed r.2 * Word.signed rhs + Word.signed r.1 = Word.signed lhs := h.whole
  rw [← Word.signed_inj, Word.signed_mul_add, hwhole, Word.bmod_signed]

end Quotients

theorem divided_signed (lhs rhs : UInt32) : Divided .div lhs rhs (compute .div lhs rhs) where
  wrapped h := by
    by_cases hover : Overflows .div lhs rhs
    · obtain ⟨-, rfl, rfl⟩ := hover
      decide
    · exact (quotient_signed h hover).wrapped_signed
  exact := quotient_signed
  overflow hover := by
    obtain ⟨-, rfl, rfl⟩ := hover
    decide
  zero h := by
    subst h
    show (lhs, if lhs.toInt32 < 0 then (1 : UInt32) else 0xffffffff) = _
    simp only [reading, Word.signed, Int32.lt_iff_toInt_lt]
    rfl

theorem divided_unsigned (lhs rhs : UInt32) : Divided .divu lhs rhs (compute .divu lhs rhs) where
  wrapped h := by
    have hwhole := Nat.div_add_mod' lhs.toNat rhs.toNat
    have hlt := lhs.toNat_lt
    rw [compute_unsigned h, ← UInt32.toNat_inj, UInt32.toNat_add, UInt32.toNat_mul, UInt32.toNat_div,
      UInt32.toNat_mod, Nat.mod_add_mod, hwhole, Nat.mod_eq_of_lt hlt]
  exact h _ := quotient_unsigned h
  overflow hover := nomatch hover.1
  zero h := by
    subst h
    rfl

/-- The words that an operation computes are right for all operands, and are what it leaves in HI and LO. -/
theorem compute_answers (op : MulDivOp) (lhs rhs : UInt32) : op.Answers lhs rhs (op.compute lhs rhs) ∧
    ∀ (f : RegisterFile) (issuedAt retired : UInt64),
      ((MulDivUnit.issue op lhs rhs issuedAt).resolve f retired).value.2.2 =
        { f with hi := (op.compute lhs rhs).1, lo := (op.compute lhs rhs).2 } := by
  refine ⟨?_, fun f issuedAt retired => ?_⟩
  · cases op with
    | mult => exact multiplied_signed lhs rhs
    | multu => exact multiplied_unsigned lhs rhs
    | div => exact divided_signed lhs rhs
    | divu => exact divided_unsigned lhs rhs
  · simp only [MulDivUnit.issue, MulDivUnit.resolve_eq]
    split <;> rfl

end MulDivOp
end R3000
