import R3000.Proofs.Alignment
import R3000.Proofs.Regions
import R3000.Proofs.SerialSafety
import R3000.Proofs.WordBits

/-! # A bus in good order

The serial ports have an order to keep, and the master flag of the DMA controller shows its level. No
access leaves a fault as long as it is aligned: banks hold it, and the registers of the DMA controller
that it names are there. -/
namespace R3000

namespace Reported.Quiet

theorem writeInterrupt (c : Interrupt.Controller) (index : Nat) (value access : UInt32) :
    (c.write index value access).Quiet := by
  unfold Interrupt.Controller.write
  split
  · exact Interrupt.Controller.quiet_refresh _
  · dsimp only
    split
    · exact .note_bind (Interrupt.Controller.quiet_refresh _)
    · exact Interrupt.Controller.quiet_refresh _
  · exact .note_bind (Interrupt.Controller.quiet_refresh _)

theorem writeMemoryControl (m : MemoryControl) (index : Nat) (value : UInt32) :
    (m.write index value).Quiet := by
  simp only [MemoryControl.write]
  split <;> exact ⟨rfl, rfl⟩

theorem writeChannel (i : Fin 7) (ch : Dma.Channel) (offset value : UInt32) :
    (Dma.Controller.writeChannel i ch offset value).Quiet := by
  simp only [Dma.Controller.writeChannel]
  split <;> exact ⟨rfl, rfl⟩

end Reported.Quiet

namespace Bus
variable {δ : Type} {b : Bus δ}

structure WellFormed (b : Bus δ) : Prop where
  serial : b.serial.WellFormed
  dicr : b.dma.dicr.Settled

/-- Operations that keep a bus in good order and leave no fault. -/
def safe (δ : Type) : Motion (Bus δ) := .invariant WellFormed fun _ => False

theorem safe_intro {r : Record} {t : Bus δ} (hr : r.faults = []) (ht : b.WellFormed → t.WellFormed) :
    (safe δ).holds b r t := by
  refine fun hb => ⟨ht hb, fun f hf => ?_⟩
  rw [hr] at hf
  exact absurd hf List.not_mem_nil

/-- A change of anything but the serial ports and the interrupt register of the DMA controller. -/
theorem safe_of_frame {r : Record} {t : Bus δ} (hr : r.faults = []) (hs : t.serial = b.serial)
    (hd : t.dma.dicr = b.dma.dicr) : (safe δ).holds b r t :=
  safe_intro hr fun hb => ⟨hs ▸ hb.serial, hd ▸ hb.dicr⟩

/-- A computation on the serial controller. -/
theorem safe_of_safe {α : Type} {x : Reported α} {ctl : α → Serial.Controller δ} {t : Bus δ}
    (hx : b.WellFormed → Serial.Controller.Safe x ctl) (hs : t.serial = ctl x.value)
    (hd : t.dma.dicr = b.dma.dicr) : (safe δ).holds b x.record t := by
  intro hb
  exact safe_intro (hx hb).faults (fun hb => ⟨hs ▸ (hx hb).wellFormed, hd ▸ hb.dicr⟩) hb

theorem raise_safe (sources : UInt32) : Moves (safe δ) (raise sources) b :=
  .get_bind (.lift_then rfl (safe_of_frame (b.int.quiet_raise _).faults rfl rfl))

theorem serialInput_safe (port : Nat) (mask levels : UInt32) :
    Moves (safe δ) (serialInput port mask levels) b :=
  .get_bind (.lift_then rfl
    (safe_of_safe (fun hb => Serial.Controller.input_safe hb.serial port mask levels _ _) rfl rfl))

theorem serialWrite_safe (port : Nat) (offset value : UInt32) (w : Width) :
    Moves (safe δ) (serialWrite port offset value w) b :=
  .get_bind (.lift_then rfl
    (safe_of_safe (fun hb => Serial.Controller.write_safe hb.serial port offset value w _ _) rfl rfl))

theorem serialUpdate_safe (cycles : UInt32) : Moves (safe δ) (serialUpdate cycles) b :=
  .get_bind (.lift_then rfl
    (safe_of_safe (fun hb => Serial.Controller.update_safe hb.serial cycles _ _) rfl rfl))

theorem serialRead_safe (port : Nat) (offset : UInt32) (w : Width) :
    Moves (safe δ) (serialRead port offset w) b :=
  .get_bind (.lift_then rfl
    (safe_of_safe (fun hb => Serial.Controller.read_safe hb.serial port offset w) rfl rfl))

theorem send_safe (i : Fin 7) (addr len : UInt32) : Moves (safe δ) (send i addr len) b := by
  refine .get_bind ?_
  split
  · exact safe_of_frame rfl rfl rfl
  · exact .note _

theorem receive_safe (i : Fin 7) (addr len : UInt32) : Moves (safe δ) (receive i addr len) b := by
  refine .get_bind ?_
  split
  · exact safe_of_frame rfl rfl rfl
  · exact .note _

theorem move_safe (i : Fin 7) (fromRam : Bool) (addr len : UInt32) :
    Moves (safe δ) (move i fromRam addr len) b := by
  cases fromRam with
  | true => exact send_safe i addr len
  | false => exact receive_safe i addr len

theorem burst_safe (i : Fin 7) : Moves (safe δ) (burst i) b := by
  refine .get_bind ?_
  dsimp only
  split
  · exact safe_of_frame rfl rfl rfl
  split
  · exact .quiet_bind (.note _) (.bind (move_safe _ _ _ _) fun _ _ _ => .pure _)
  · exact .bind (move_safe _ _ _ _) fun _ _ _ => .pure _

theorem blocks_safe (i : Fin 7) : Moves (safe δ) (blocks i) b :=
  .get_bind (.bind (move_safe _ _ _ _) fun _ _ _ => safe_of_frame rfl rfl rfl)

theorem faults_sendNodes (i : Fin 7) (nodes : List Dma.Node) (b : Bus δ) :
    (sendNodes i nodes b).record.faults = [] := by
  unfold sendNodes
  dsimp only
  split <;> rfl

theorem frame_sendNodes (i : Fin 7) (nodes : List Dma.Node) (b : Bus δ) :
    (sendNodes i nodes b).value.serial = b.serial ∧ (sendNodes i nodes b).value.dma = b.dma := by
  unfold sendNodes
  dsimp only
  split <;> exact ⟨rfl, rfl⟩

theorem list_safe (i : Fin 7) : Moves (safe δ) (list i) b := by
  refine .get_bind ?_
  dsimp only
  split
  · generalize Dma.Walk.start b.ram _ = walk
    refine .lift_bind (safe_of_frame (faults_sendNodes i walk.nodes b) rfl rfl) ?_
    obtain ⟨hs, hd⟩ := frame_sendNodes i walk.nodes b
    split
    · exact .quiet_bind (.note _) (safe_of_frame rfl hs (congrArg (·.dicr) hd))
    · exact safe_of_frame rfl hs (congrArg (·.dicr) hd)
  · exact .quiet_bind (.note _) (.pure _)

theorem transfer_safe (i : Fin 7) (sync : UInt32) : Moves (safe δ) (transfer i sync) b := by
  simp only [transfer]
  split
  · exact burst_safe i
  · exact blocks_safe i
  · exact list_safe i
  · exact .quiet_bind (.note _) (.pure _)

theorem tryStart_safe (i : Fin 7) : Moves (safe δ) (tryStart i) b := by
  refine .get_bind ?_
  dsimp only
  split
  · exact .set_bind (safe_of_frame rfl rfl rfl)
      (.bind (transfer_safe i _) fun _ _ _ => safe_of_frame rfl rfl rfl)
  · exact .pure _

/-- Whatever has been done to the interrupt register, its master flag shows the level afterwards. -/
theorem refreshDicr_safe {r : Record} (hr : r.faults = []) {t : Bus δ} (hs : t.serial = b.serial) :
    (safe δ).holds b (r ++ (refreshDicr t).record) (refreshDicr t).value.2 := by
  have hraise : Moves (safe δ)
      (if t.dma.dicr.level && !t.dma.dicr.master then raise Interrupt.Source.dma else pure ())
      { t with dma := { t.dma with dicr := t.dma.dicr.setMaster t.dma.dicr.level } } := by
    split
    · exact raise_safe _
    · exact .pure _
  intro hb
  obtain ⟨hw, hf⟩ := hraise ⟨hs ▸ hb.serial, Dma.Dicr.settled_setMaster _⟩
  refine ⟨hw, fun f h => ?_⟩
  rw [Record.faults_append, hr] at h
  exact hf f h

/-- The registers of the DMA controller end where those of the channels do, and two words more. -/
theorem channel_of_offset {offset : UInt32} (ha : Width.word.aligned offset)
    (h0 : offset ≠ 0x70) (h4 : offset ≠ 0x74) (h8 : ¬0x78 ≤ offset) :
    (offset >>> 4).toNat < 7 := by
  rw [Width.aligned_iff] at ha
  rw [ne_eq, ← UInt32.toNat_inj] at h0 h4
  rw [UInt32.le_iff_toNat_le] at h8
  rw [Word.toNat_shiftRight offset 4 16 rfl]
  simp only [Width.bytes, UInt32.reduceToNat] at *
  omega

theorem dmaRead_safe {offset : UInt32} (ha : Width.word.aligned offset) :
    Moves (safe δ) (dmaRead offset) b := by
  refine .get_bind (.lift (safe_of_frame (?_ : Reported.Quiet _).faults rfl rfl))
  unfold Dma.Controller.read
  split
  · exact .pure _
  split
  · exact .pure _
  split
  · exact .note_bind (.pure _)
  dsimp only
  rw [dif_pos (channel_of_offset ha ‹_› ‹_› ‹_›)]
  split
  · exact .pure _
  · exact .pure _
  · exact .pure _
  · exact .note_bind (.pure _)

theorem dmaWrite_safe {offset : UInt32} (ha : Width.word.aligned offset) (value : UInt32) :
    Moves (safe δ) (dmaWrite offset value) b := by
  refine .get_bind ?_
  split
  · exact .set_bind (safe_of_frame rfl rfl rfl) (.forM (fun i s => tryStart_safe i) _ _)
  split
  · exact refreshDicr_safe (r := {}) rfl rfl
  split
  · exact .note _
  dsimp only
  rw [dif_pos (channel_of_offset ha ‹_› ‹_› ‹_›)]
  exact .quiet_bind (.writeChannel _ _ _ _) (.set_bind (safe_of_frame rfl rfl rfl) (tryStart_safe _))

theorem complete_safe (i : Fin 7) : Moves (safe δ) (complete i) b :=
  .quiet_bind (.note _) (refreshDicr_safe (r := {}) rfl rfl)

theorem updateChannel_safe (cycles : UInt32) (i : Fin 7) :
    Moves (safe δ) (updateChannel cycles i) b := by
  refine .get_bind ?_
  dsimp only
  split
  · exact .pure _
  split
  · exact safe_of_frame rfl rfl rfl
  · exact complete_safe i

theorem dmaUpdate_safe (cycles : UInt32) : Moves (safe δ) (dmaUpdate cycles) b :=
  .forM (fun i _ => updateChannel_safe cycles i) _ _

theorem update_safe (cycles : UInt32) : Moves (safe δ) (update cycles) b := by
  simp only [update]
  split
  · exact .bind (dmaUpdate_safe cycles) fun _ _ _ => serialUpdate_safe cycles
  · exact .pure _

theorem readGroup_safe (offset : UInt32) (w : Width) (g : Group) :
    Moves (safe δ) (readGroup offset w g) b := by
  cases g with
  | memoryControl index => exact .get_bind (.pure _)
  | ramSize => exact .get_bind (.pure _)
  | interrupt index => exact .get_bind (.pure _)
  | serial port reg => exact serialRead_safe port reg w
  | dma reg =>
    exact .bind (dmaRead_safe (Width.word_aligned_base reg)) fun _ _ _ => .pure _

theorem ioRead_safe (offset : UInt32) (w : Width) : Moves (safe δ) (ioRead offset w) b := by
  simp only [ioRead]
  split
  · exact .pure _
  · exact .bind (readGroup_safe _ _ _) fun _ _ _ => .quiet_bind (.note _) (.pure _)

theorem writeGroup_safe (offset value : UInt32) (w : Width) (g : Group) :
    Moves (safe δ) (writeGroup offset value w g) b := by
  cases g with
  | memoryControl index =>
    exact .get_bind (.lift_then rfl (safe_of_frame ((.writeMemoryControl _ _ _) : Reported.Quiet _).faults rfl rfl))
  | ramSize => exact safe_of_frame rfl rfl rfl
  | interrupt index =>
    exact .get_bind (.lift_then rfl (safe_of_frame ((.writeInterrupt _ _ _ _) : Reported.Quiet _).faults rfl rfl))
  | serial port reg => exact serialWrite_safe port reg value w
  | dma reg =>
    exact .bind (dmaRead_safe (Width.word_aligned_base reg)) fun _ _ _ =>
      dmaWrite_safe (Width.word_aligned_base reg) _

theorem ioWrite_safe (offset value : UInt32) (w : Width) :
    Moves (safe δ) (ioWrite offset value w) b := by
  simp only [ioWrite]
  split
  · exact .pure _
  · exact .quiet_bind (.note _) (.bind (writeGroup_safe _ _ _ _) fun _ _ _ => .pure _)

theorem deviceRead_safe (addr : UInt32) (w : Width) : Moves (safe δ) (deviceRead addr w) b :=
  safe_of_frame rfl rfl rfl

theorem deviceWrite_safe (addr value : UInt32) (w : Width) :
    Moves (safe δ) (deviceWrite addr value w) b :=
  safe_of_frame rfl rfl rfl

theorem Region.holds_ram {addr : UInt32} {w : Width} {offset : Nat} (ha : w.aligned addr)
    (h : Region.of addr = .ram offset) : Bank.holds ramSize offset w := by
  have hat := Region.at_of addr
  rw [h] at hat
  obtain ⟨-, rfl, hin⟩ := hat
  rw [Width.aligned_iff] at ha
  refine Bank.holds_of_aligned (by decide) hin ?_
  rw [Nat.mod_mod_of_dvd _ (by cases w <;> decide)]
  exact ha

theorem Region.holds_rom {addr : UInt32} {w : Width} {offset : Nat} (ha : w.aligned addr)
    (h : Region.of addr = .rom offset) : Bank.holds romSize offset w := by
  have hat := Region.at_of addr
  rw [h] at hat
  obtain ⟨hoffset, hin⟩ := hat
  rw [Width.aligned_iff] at ha
  refine Bank.holds_of_aligned (by decide) hin ?_
  cases w <;> simp only [Width.bytes] at * <;> omega

theorem read_safe {addr : UInt32} {w : Width} (ha : w.aligned addr) :
    Moves (safe δ) (read addr w) b := by
  simp only [read]
  split
  · exact .quiet_bind (.require_true (Region.holds_ram ha ‹_›)) (.get_bind (.pure _))
  · exact .quiet_bind (.require_true (Region.holds_rom ha ‹_›)) (.get_bind (.pure _))
  · refine .bind (ioRead_safe _ _) fun r s _ => ?_
    cases r with
    | some value => exact .pure _
    | none => exact deviceRead_safe _ _
  · exact deviceRead_safe _ _

theorem write_safe {addr : UInt32} {w : Width} (ha : w.aligned addr) (value : UInt32) :
    Moves (safe δ) (write addr value w) b := by
  simp only [write]
  split
  · exact .quiet_bind (.require_true (Region.holds_ram ha ‹_›)) (safe_of_frame rfl rfl rfl)
  · exact .quiet_bind (.note _) (.pure _)
  · refine .bind (ioWrite_safe _ _ _) fun r s _ => ?_
    split
    · exact .pure _
    · exact deviceWrite_safe _ _ _
  · exact deviceWrite_safe _ _ _

theorem refill_safe (a : ICache.Address) (ws : List (Fin 4)) (l : ICache.Line) :
    Moves (safe δ) (ICache.refill (fun x => read x .word) a ws l) b := by
  induction ws generalizing l b with
  | nil => exact .pure _
  | cons w ws ih =>
    refine .bind (read_safe (a.wordAddr_aligned w)) fun r s _ => ?_
    cases r with
    | error e => exact .pure _
    | ok word => exact ih _

theorem fetchLine_safe (c : ICache) (addr : UInt32) :
    Moves (safe δ) (c.fetch addr fun a => read a .word) b := by
  unfold ICache.fetch
  dsimp only
  split
  · exact .quiet_bind (.note _) (.pure _)
  · refine .quiet_bind (.note _) (.bind (refill_safe _ _ _) ?_)
    rintro ⟨refused, l⟩ s _
    cases refused <;> exact .pure _

end Bus
end R3000
