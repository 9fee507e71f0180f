import R3000.ICache.Address
import R3000.Report

/-! # The instruction cache

The cache is direct-mapped, with a valid bit for every word. On a miss the line is refilled from the
missed word to its end; the words before keep their validity if the line keeps its tag. -/
namespace R3000
namespace ICache

structure Line where
  tag : UInt32 := 0
  valid : Vector Bool 4 := Vector.replicate 4 false
  words : Vector UInt32 4 := Vector.replicate 4 0
deriving DecidableEq

namespace Line

/-- The word at an address, if the line holds a valid copy of it. -/
def lookup (l : Line) (a : Address) : Option UInt32 :=
  if l.tag = a.tag ∧ l.valid[a.word] then some l.words[a.word] else none

def invalidate (l : Line) : Line := { l with valid := Vector.replicate 4 false }

/-- Makes the line one of this tag; its words stay valid only if it was one already. -/
def retag (l : Line) (tag : UInt32) : Line :=
  if l.tag = tag then l else { l.invalidate with tag }

def fill (l : Line) (w : Fin 4) (word : UInt32) : Line :=
  { l with words := l.words.set w word, valid := l.valid.set w true }

def anyValid (l : Line) : Bool := l.valid.any id

end Line

/-- The words of a line from `w` to its end. -/
def wordsFrom (w : Fin 4) : List (Fin 4) := (List.finRange 4).filter (w ≤ ·)

structure Fetch where
  word : UInt32
  /-- The word was valid in the cache. -/
  hit : Bool
deriving DecidableEq

end ICache

structure ICache where
  lines : Vector ICache.Line 256 := Vector.replicate 256 {}
deriving DecidableEq

namespace ICache
variable {σ ε : Type}

def line (c : ICache) (a : Address) : Line := c.lines[a.line]

def setLine (c : ICache) (a : Address) (l : Line) : ICache := ⟨c.lines.set a.line l⟩

/-- Fills words of a line in order with what `read` answers for them. The first one that is refused
ends the refill; what was filled before it stays. -/
def refill (read : UInt32 → StateT σ Reported (Except ε UInt32)) (a : Address) :
    List (Fin 4) → Line → StateT σ Reported (Option ε × Line)
  | [], l => pure (none, l)
  | w :: ws, l => do
    match ← read (a.wordAddr w) with
    | .error e => return (some e, l)
    | .ok word => refill read a ws (l.fill w word)

/-- Fetches the word at a physical address; `read` is asked for the words of the line that are
missing, if any. -/
def fetch (c : ICache) (addr : UInt32) (read : UInt32 → StateT σ Reported (Except ε UInt32)) :
    StateT σ Reported (Except ε Fetch × ICache) := do
  let a := Address.of addr
  match (c.line a).lookup a with
  | some word =>
    note (.instructionHit a)
    return (.ok ⟨word, true⟩, c)
  | none =>
    note (.instructionMiss a)
    let (refused, l) ← refill read a (wordsFrom a.word) ((c.line a).retag a.tag)
    match refused with
    | some e => return (.error e, c.setLine a l)
    | none => return (.ok ⟨l.words[a.word], false⟩, c.setLine a l)

/-- Gives a line the tag of an address, with no word valid. -/
def invalidateLine (c : ICache) (addr : UInt32) : Reported ICache := do
  let a := Address.of addr
  note (.lineInvalidated a)
  return c.setLine a { (c.line a).invalidate with tag := a.tag }

/-- The word an address maps to, whatever the tags say. -/
def loadIsolated (c : ICache) (addr : UInt32) : UInt32 :=
  let a := Address.of addr
  (c.line a).words[a.word]

/-- Overwrites the word an address maps to; tags and valid bits stay. -/
def storeIsolated (c : ICache) (addr value : UInt32) : ICache :=
  let a := Address.of addr
  c.setLine a { c.line a with words := (c.line a).words.set a.word value }

def invalidateAll (c : ICache) : ICache := ⟨c.lines.map Line.invalidate⟩

def describe (c : ICache) : String :=
  "Cache(" ++ toString (c.lines.toList.countP Line.anyValid) ++ " of 256 lines valid)"

end ICache
end R3000
