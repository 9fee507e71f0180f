import R3000.Text.Numeral

/-! # Addresses as the instruction cache sees them: 256 lines of four words -/
namespace R3000.ICache

structure Address where
  tag : UInt32
  line : Fin 256
  word : Fin 4
deriving DecidableEq

namespace Address

/-- The byte within the word is dropped. -/
def of (addr : UInt32) : Address where
  tag := addr >>> 12
  line := ⟨(addr.toNat >>> 4) % 256, Nat.mod_lt _ (by decide)⟩
  word := ⟨(addr.toNat >>> 2) % 4, Nat.mod_lt _ (by decide)⟩

/-- The physical address of word `w` of the line. -/
def wordAddr (a : Address) (w : Fin 4) : UInt32 :=
  a.tag <<< 12 ||| UInt32.ofNat a.line <<< 4 ||| UInt32.ofNat w <<< 2

def text (a : Address) : String :=
  Numeral.digits a.tag.toNat 1 ++ ":" ++ Numeral.digits a.line 1 ++ ":" ++ toString a.word.val

end Address

example : Address.of 0x00123458 = ⟨0x123, 0x45, 2⟩ := by decide

end R3000.ICache
