import R3000.Width

/-! # Byte lanes of little-endian words

An access of some width at an address selects a lane of the word that holds the address; only the
low two bits of the address count, and a half ignores the lowest. -/
namespace R3000.Lane

/-- The bit position of the lane within its word. -/
def shift (addr : UInt32) : Width → UInt32
  | .byte => (addr &&& 3) * 8
  | .half => (addr &&& 2) * 8
  | .word => 0

/-- The bits of the word that the lane covers. -/
def mask (addr : UInt32) : Width → UInt32
  | .byte => 0xff <<< shift addr .byte
  | .half => 0xffff <<< shift addr .half
  | .word => 0xffffffff

/-- The lane's value, zero-extended. -/
def extract (word addr : UInt32) (w : Width) : UInt32 := (word &&& mask addr w) >>> shift addr w

/-- The word with the lane replaced by the low bits of `value`. -/
def insert (word value addr : UInt32) (w : Width) : UInt32 :=
  (word &&& ~~~mask addr w) ||| ((value <<< shift addr w) &&& mask addr w)

/-- The width of the next piece where `left` lanes remain from `lane` on: the widest one that is naturally
aligned. -/
def pieceWidth (lane left : Nat) : Width :=
  if left = 4 then .word
  else if (left = 2 ∨ left = 3) ∧ lane % 2 = 0 then .half
  else .byte

/-- The pieces that cover the lanes of a word from `lane` to `last`, by their first lane. -/
def pieces (lane last : Nat) : List (UInt32 × Width) :=
  if lane ≤ last then
    let w := pieceWidth lane (last + 1 - lane)
    (UInt32.ofNat lane, w) :: pieces (lane + w.bytes) last
  else []
termination_by last + 1 - lane
decreasing_by
  have := (pieceWidth lane (last + 1 - lane)).bytes_pos
  omega

theorem pieces_of_le {lane last : Nat} (h : lane ≤ last) : pieces lane last =
    (UInt32.ofNat lane, pieceWidth lane (last + 1 - lane)) ::
      pieces (lane + (pieceWidth lane (last + 1 - lane)).bytes) last := by
  rw [pieces, if_pos h]

theorem pieces_of_lt {lane last : Nat} (h : last < lane) : pieces lane last = [] := by
  rw [pieces, if_neg (Nat.not_le_of_lt h)]

/-- The pieces that cover the lanes up to the given one. -/
def upTo : Fin 4 → List (UInt32 × Width)
  | 0 => [(0, .byte)]
  | 1 => [(0, .half)]
  | 2 => [(0, .half), (2, .byte)]
  | 3 => [(0, .word)]

/-- The pieces that cover the lanes from the given one on. -/
def onward : Fin 4 → List (UInt32 × Width)
  | 0 => [(0, .word)]
  | 1 => [(1, .byte), (2, .half)]
  | 2 => [(2, .half)]
  | 3 => [(3, .byte)]

theorem pieces_upTo (l : Fin 4) : pieces 0 l = upTo l := by
  match l with
  | ⟨0, _⟩ | ⟨1, _⟩ | ⟨2, _⟩ | ⟨3, _⟩ => simp [pieces_of_le, pieces_of_lt, pieceWidth, Width.bytes, upTo]

theorem pieces_onward (l : Fin 4) : pieces l 3 = onward l := by
  match l with
  | ⟨0, _⟩ | ⟨1, _⟩ | ⟨2, _⟩ | ⟨3, _⟩ => simp [pieces_of_le, pieces_of_lt, pieceWidth, Width.bytes, onward]

/-- The lane that holds the byte at an address. -/
def of (addr : UInt32) : Fin 4 := ⟨addr.toNat % 4, Nat.mod_lt _ (by decide)⟩

/-- The address of the word that holds an address. -/
def base (addr : UInt32) : UInt32 := addr &&& 0xfffffffc

example : extract 0xaabbccdd 3 .half = 0xaabb ∧ extract 0xaabbccdd 1 .byte = 0xcc := by decide
example : insert 0x11223344 0xff 2 .byte = 0x11ff3344 := by decide

end R3000.Lane
