import R3000.Bus

/-! # DMA transfers

A transfer runs as a whole the moment its channel is armed and enabled, and is reported complete some
cycles for each word later. The only transfer that needs no peer is the clearing of an ordering
table. -/
namespace R3000.Bus
variable {δ : Type}

/-- Hands words of RAM to the writer of a channel. -/
def send (i : Fin 7) (addr len : UInt32) : Bus.Op δ Unit := do
  let b ← get
  match b.dma.writer? i with
  | some write =>
    act (.dmaWrite i addr len)
    set { b with outside := write addr len b.ram b.outside }
  | none => note (.noWriter i len)

/-- Lets the reader of a channel put words into RAM. -/
def receive (i : Fin 7) (addr len : UInt32) : Bus.Op δ Unit := do
  let b ← get
  match b.dma.reader? i with
  | some read =>
    act (.dmaRead i addr len)
    modify fun b =>
      let (ram, outside) := read addr len b.ram b.outside
      { b with ram, outside }
  | none => note (.noReader i len)

def move (i : Fin 7) (fromRam : Bool) (addr len : UInt32) : Bus.Op δ Unit :=
  if fromRam then send i addr len else receive i addr len

/-- A burst. The table channel without a reader clears a table. -/
def burst (i : Fin 7) : Bus.Op δ UInt32 := do
  let b ← get
  let ch := b.dma.channel i
  if i = Dma.otc ∧ (b.dma.reader? i).isNone then
    modify fun b => { b with ram := Dma.clearTable ch.burst.toNat ch.start b.ram }
  else
    if ch.chcr.backward ∧ i ≠ Dma.otc then note (.backwardStep i)
    move i ch.chcr.fromRam ch.start ch.burst
  return ch.burst

/-- A transfer in blocks, which leaves the address behind the last one. -/
def blocks (i : Fin 7) : Bus.Op δ UInt32 := do
  let ch := (← get).dma.channel i
  move i ch.chcr.fromRam ch.start ch.blocks
  modify fun b => { b with dma := b.dma.setChannel i ch.afterBlocks }
  return ch.blocks

/-- Hands the payloads of nodes to the writer of a channel, the empty ones left out. -/
def sendNodes (i : Fin 7) (nodes : List Dma.Node) (b : Bus δ) : Reported (Bus δ) :=
  let loaded := nodes.filter fun n => n.len ≠ 0
  match b.dma.writer? i with
  | some write =>
    { value := { b with
        outside := loaded.foldl (fun o n => write n.payload n.len b.ram o) b.outside }
      record := { acts := loaded.map fun n => .dmaWrite i n.payload n.len } }
  | none =>
    { value := b
      record := { notices := loaded.map fun n => .noWriter i n.len } }

/-- Walks a linked list out of RAM. -/
def list (i : Fin 7) : Bus.Op δ UInt32 := do
  let b ← get
  let ch := b.dma.channel i
  if ch.chcr.fromRam then
    let walk := Dma.Walk.start b.ram ch.start
    let b ← sendNodes i walk.nodes b
    if !walk.ended then note (.endlessList i)
    set { b with dma := b.dma.setChannel i { ch with madr := Dma.endOfList } }
    return walk.words
  else
    note (.listIntoRam i)
    return 0

/-- Moves the data of a transfer. Gives the count of its words. -/
def transfer (i : Fin 7) (sync : UInt32) : Bus.Op δ UInt32 := do
  match sync.toNat with
  | 0 => burst i
  | 1 => blocks i
  | 2 => list i
  | _ =>
    note (.reservedSync i)
    return 0

/-- Runs the transfer of a channel that is armed, enabled and idle. -/
def tryStart (i : Fin 7) : Bus.Op δ Unit := do
  let b ← get
  let ch := b.dma.channel i
  if ch.chcr.armed && b.dma.enabled i && !ch.inFlight then
    set { b with dma := b.dma.setChannel i { ch with chcr := ch.chcr.setTrigger false } }
    let words ← transfer i ch.chcr.sync
    modify fun b =>
      let cycles := Word.satMul (max words 1) (max b.dma.wordCycles 1)
      { b with dma := b.dma.setChannel i { b.dma.channel i with countdown := some cycles } }

/-- Brings the master flag of the interrupt register up to date. Where it rises the DMA source is
raised. -/
def refreshDicr : Bus.Op δ Unit := do
  let b ← get
  let d := b.dma.dicr
  set { b with dma := { b.dma with dicr := d.setMaster d.level } }
  if d.level && !d.master then raise Interrupt.Source.dma

/-- The channels in order. -/
def channels : List (Fin 7) := List.finRange 7

def dmaRead (offset : UInt32) : Bus.Op δ UInt32 := do (← get).dma.read offset

/-- Writes the DMA register at a word-aligned offset, and runs what that arms. -/
def dmaWrite (offset value : UInt32) : Bus.Op δ Unit := do
  let b ← get
  if offset = 0x70 then
    set { b with dma := { b.dma with dpcr := value } }
    channels.forM tryStart
  else if offset = 0x74 then
    set { b with dma := { b.dma with dicr := b.dma.dicr.write value } }
    refreshDicr
  else if 0x78 ≤ offset then note (.unknownDmaWrite offset)
  else
    let i := (offset >>> 4).toNat
    if h : i < 7 then
      let i : Fin 7 := ⟨i, h⟩
      let ch ← Dma.Controller.writeChannel i (b.dma.channel i) offset value
      set { b with dma := b.dma.setChannel i ch }
      tryStart i
    else fault (.channel offset)

/-- Reports the transfer of a channel complete. -/
def complete (i : Fin 7) : Bus.Op δ Unit := do
  note (.transferComplete i)
  modify fun b =>
    let ch := b.dma.channel i
    let chcr := (ch.chcr.setBusy false).setTrigger false
    { b with
      dma := { b.dma.setChannel i { ch with chcr, countdown := none } with
        dicr := b.dma.dicr.complete i } }
  refreshDicr

/-- Lets cycles pass on one channel. -/
def updateChannel (cycles : UInt32) (i : Fin 7) : Bus.Op δ Unit := do
  let b ← get
  let ch := b.dma.channel i
  match ch.countdown with
  | none => return ()
  | some r =>
    if cycles < r then
      set { b with dma := b.dma.setChannel i { ch with countdown := some (r - cycles) } }
    else complete i

def dmaUpdate (cycles : UInt32) : Bus.Op δ Unit := channels.forM (updateChannel cycles)

end R3000.Bus
