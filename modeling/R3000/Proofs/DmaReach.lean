import R3000.Proofs.DmaTransfers

/-! # How far DMA reaches

A transfer reads and writes RAM, asks the world outside, and leaves its marks in the DMA registers. A write
to these registers may raise the DMA source besides, and that is all that it can bring about. -/
namespace R3000.Bus
variable {δ : Type} {b : Bus δ}

def reaching : Motion (Bus δ) where
  holds b _ t := t = { b with ram := t.ram, dma := t.dma, outside := t.outside }
  still _ _ := rfl
  trans h k := by
    rw [h] at k
    exact k

theorem value_sendNodes (i : Fin 7) (nodes : List Dma.Node) (b : Bus δ) :
    (sendNodes i nodes b).value = { b with outside := (sendNodes i nodes b).value.outside } := by
  unfold sendNodes
  dsimp only
  split <;> rfl

theorem move_reaches (i : Fin 7) (fromRam : Bool) (addr len : UInt32) :
    Moves reaching (move i fromRam addr len) b := by
  cases fromRam <;> refine .get_bind ?_ <;> split
  · rfl
  · exact .note _
  · rfl
  · exact .note _

theorem transfer_reaches (i : Fin 7) (sync : UInt32) : Moves reaching (transfer i sync) b := by
  simp only [transfer]
  split
  · refine .get_bind ?_
    dsimp only
    split
    · exact .bind (.modify rfl) fun _ _ _ => .pure _
    split
    · exact .quiet_bind (.note _) (.bind (move_reaches _ _ _ _) fun _ _ _ => .pure _)
    · exact .bind (move_reaches _ _ _ _) fun _ _ _ => .pure _
  · exact .get_bind (.bind (move_reaches _ _ _ _) fun _ _ _ => .bind (.modify rfl) fun _ _ _ => .pure _)
  · refine .get_bind ?_
    dsimp only
    split
    · generalize Dma.Walk.start b.ram _ = walk
      have hset : ∀ ch, reaching.holds b {} { (sendNodes i walk.nodes b).value with
          dma := (sendNodes i walk.nodes b).value.dma.setChannel i ch } := fun ch => by
        rw [value_sendNodes]
        rfl
      refine .lift_bind rfl ?_
      split
      · exact .quiet_bind (.note _) (hset _)
      · exact hset _
    · exact .quiet_bind (.note _) (.pure _)
  · exact .quiet_bind (.note _) (.pure _)

theorem tryStart_reaches (i : Fin 7) : Moves reaching (tryStart i) b := by
  refine .get_bind ?_
  dsimp only
  split
  · exact .set_bind rfl (.bind (transfer_reaches i _) fun _ _ _ => .modify rfl)
  · exact .pure _

theorem stored_frame (offset value : UInt32) (b : Bus δ) : stored offset value b =
    { b with int := (stored offset value b).int, dma := (stored offset value b).dma } := by
  unfold stored
  split
  · rfl
  split
  · rfl
  split
  · rfl
  split <;> rfl

theorem dmaWrite_frame (offset value : UInt32) (b : Bus δ) : ∃ ram int dma outside,
    (dmaWrite offset value b).value.2 = { b with ram, int, dma, outside } := by
  have htries : Moves reaching ((tries offset).forM tryStart) (stored offset value b) :=
    .forM (fun i _ => tryStart_reaches i) _ _
  have hstate := (dmaWrite_stored offset value b).2.trans htries
  rw [stored_frame] at hstate
  exact ⟨_, _, _, _, hstate⟩

end R3000.Bus
