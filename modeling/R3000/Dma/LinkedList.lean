import R3000.Memory
import R3000.Word

/-! # Linked lists in RAM

The header of a node holds the count of the payload words that follow it, in the top byte, and the
address of the next node; bit 23 ends the list. -/
namespace R3000.Dma

structure Node where
  addr : UInt32
  header : UInt32
deriving DecidableEq

namespace Node

/-- The words of payload. -/
def len (n : Node) : UInt32 := n.header >>> 24

def last (n : Node) : Bool := Word.bit n.header 23

def next (n : Node) : UInt32 := n.header &&& 0x001ffffc

/-- Where the payload starts. -/
def payload (n : Node) : UInt32 := n.addr + 4

def read (ram : MainRam) (addr : UInt32) : Node := ⟨addr, ram.word addr⟩

end Node

/-- What ends a list, and what a walk leaves in the address register. -/
def endOfList : UInt32 := 0x00ffffff

/-- A walk gives up after as many nodes as RAM has words. -/
def maxNodes : Nat := ramSize / 4

structure Walk where
  nodes : List Node
  /-- The list came to its end. -/
  ended : Bool

namespace Walk

/-- The nodes from `addr` on, at most `fuel` of them, after those in `seen`, latest first. -/
def follow (ram : MainRam) : Nat → UInt32 → List Node → Walk
  | 0, _, seen => ⟨seen.reverse, false⟩
  | fuel + 1, addr, seen =>
    let node := Node.read ram addr
    if node.last then ⟨(node :: seen).reverse, true⟩
    else follow ram fuel node.next (node :: seen)

def start (ram : MainRam) (addr : UInt32) : Walk := follow ram maxNodes addr []

/-- The words of the walk, headers included. -/
def words (w : Walk) : UInt32 := w.nodes.foldl (fun total n => total + n.len + 1) 0

end Walk
end R3000.Dma
