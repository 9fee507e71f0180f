import R3000.Proofs.BusCourse
import R3000.Proofs.BusSafety
import R3000.Proofs.Unchanged

/-! # The addresses that the device is asked about

Whatever an access sets going in the parts of the machine, the device at the end of the bus sees at most
the access itself. -/
namespace R3000

def Act.address? : Act → Option UInt32
  | .deviceRead addr _ | .deviceWrite addr _ _ => some addr
  | _ => none

/-- The device was asked only about such addresses. -/
def Record.Asks (ok : UInt32 → Prop) (r : Record) : Prop :=
  ∀ a ∈ r.acts, ∀ addr, a.address? = some addr → ok addr

variable {ok : UInt32 → Prop}

namespace Record.Asks
variable {r q : Record}

theorem of_acts (h : r.acts = []) : r.Asks ok := fun a ha => by
  rw [h] at ha
  cases ha

/-- The device was not asked at all. -/
theorem of_inward (h : ∀ a ∈ r.acts, a.address? = none) : r.Asks ok := fun a ha addr h' => by
  rw [h a ha] at h'
  cases h'

theorem append (hr : r.Asks ok) (hq : q.Asks ok) : (r ++ q).Asks ok := fun a ha =>
  (List.mem_append.mp ha).elim (hr a) (hq a)

end Record.Asks

def asking {σ : Type} (ok : UInt32 → Prop) : Motion σ where
  holds _ r _ := r.Asks ok
  still _ _ := .of_acts rfl
  trans := .append

def acting {σ : Type} (P : Act → Prop) : Motion σ where
  holds _ r _ := ∀ a ∈ r.acts, P a
  still _ _ := nofun
  trans hr hq a ha := (List.mem_append.mp ha).elim (hr a) (hq a)

theorem acting_of_acts {σ : Type} {P : Act → Prop} {s t : σ} {r : Record} (h : r.acts = []) :
    (acting P).holds s r t := fun a ha => by
  rw [h] at ha
  cases ha

namespace Serial

theorem Port.kick_quiet (p : Port) : p.kick.Quiet := by
  unfold kick
  split
  · dsimp only
    split
    · exact .note_bind (.pure _)
    · exact .pure _
  · exact .pure _

theorem Port.transmit_quiet (p : Port) (value : UInt8) : (p.transmit value).Quiet := by
  unfold transmit
  dsimp only
  split
  · exact .note_bind (kick_quiet _)
  · exact kick_quiet _

theorem Port.writeControl_quiet (p : Port) (value : UInt16) : (p.writeControl value).Quiet := by
  unfold writeControl
  dsimp only
  split
  · exact .note_bind (.pure _)
  generalize Port.drive _ _ = r
  split
  · exact (kick_quiet r.port).bind (.pure _)
  split
  · exact .pure _
  · exact .pure _

namespace Controller
variable {δ : Type}

theorem writePort_quiet (p : Port) (offset value : UInt32) (w : Width) :
    (writePort p offset value w).Quiet := by
  unfold writePort
  extract_lets index word mask low high
  split
  · exact (p.transmit_quiet _).bind (.pure _)
  split
  · split
    · exact Port.writeControl_quiet _ _
    · exact .pure _
  split
  · exact .pure _
  · exact .note_bind (.pure _)

theorem tell_inward (c : Controller δ) (i : Fin 2) (driven : List Lines) (outside : δ) :
    ∀ a ∈ (c.tell i driven outside).record.acts, a.address? = none := by
  simp only [tell]
  split
  · simp
  · induction driven generalizing outside with
    | nil => simp
    | cons l ls ih =>
      rw [List.foldlM_cons]
      intro a ha
      rcases List.mem_append.mp ha with ha | ha
      · rw [List.mem_singleton.mp ha]
        rfl
      · exact ih _ a ha

theorem settle_asks (c : Controller δ) (i : Fin 2) (r : Reaction) (int : Interrupt.Controller)
    (outside : δ) : (c.settle i r int outside).record.Asks ok :=
  .append (.of_inward (tell_inward c _ _ _))
    (.append (.of_acts (int.quiet_raiseTimes _ _).acts) (.of_acts rfl))

theorem write_asks (c : Controller δ) (port : Nat) (offset value : UInt32) (w : Width)
    (int : Interrupt.Controller) (outside : δ) :
    (c.write port offset value w int outside).record.Asks ok := by
  simp only [write]
  split
  · exact .append (.of_acts (writePort_quiet _ offset value w).acts) (c.settle_asks _ _ _ _)
  · exact .of_acts rfl

end Controller
end Serial

namespace Bus
variable {δ : Type} {b : Bus δ}

theorem raise_asks (sources : UInt32) : Moves (asking ok) (raise sources) b :=
  .get_bind (.lift_then rfl (.of_acts (b.int.quiet_raise _).acts))

theorem move_asks (i : Fin 7) (fromRam : Bool) (addr len : UInt32) :
    Moves (asking ok) (move i fromRam addr len) b := by
  cases fromRam <;> refine .get_bind ?_ <;> split
  · refine .of_inward fun a ha => ?_
    rw [List.mem_singleton.mp ha]
    rfl
  · exact .note _
  · refine .of_inward fun a ha => ?_
    rw [List.mem_singleton.mp ha]
    rfl
  · exact .note _

theorem sendNodes_inward (i : Fin 7) (nodes : List Dma.Node) (b : Bus δ) :
    ∀ a ∈ (sendNodes i nodes b).record.acts, a.address? = none := by
  unfold sendNodes
  dsimp only
  split
  · intro a ha
    obtain ⟨n, -, rfl⟩ := List.mem_map.mp ha
    rfl
  · simp

theorem transfer_asks (i : Fin 7) (sync : UInt32) : Moves (asking ok) (transfer i sync) b := by
  simp only [transfer]
  split
  · refine .get_bind ?_
    dsimp only
    split
    · exact .bind (.modify (.of_acts rfl)) fun _ _ _ => .pure _
    split
    · exact .quiet_bind (.note _) (.bind (move_asks _ _ _ _) fun _ _ _ => .pure _)
    · exact .bind (move_asks _ _ _ _) fun _ _ _ => .pure _
  · exact .get_bind (.bind (move_asks _ _ _ _) fun _ _ _ =>
      .bind (.modify (.of_acts rfl)) fun _ _ _ => .pure _)
  · refine .get_bind ?_
    dsimp only
    split
    · refine .lift_bind (.of_inward (sendNodes_inward i _ b)) ?_
      split
      · exact .quiet_bind (.note _) (.set_bind (.of_acts rfl) (.pure _))
      · exact .set_bind (.of_acts rfl) (.pure _)
    · exact .quiet_bind (.note _) (.pure _)
  · exact .quiet_bind (.note _) (.pure _)

theorem tryStart_asks (i : Fin 7) : Moves (asking ok) (tryStart i) b := by
  refine .get_bind ?_
  dsimp only
  split
  · exact .set_bind (.of_acts rfl) (.bind (transfer_asks i _) fun _ _ _ => .modify (.of_acts rfl))
  · exact .pure _

theorem dmaWrite_asks (offset value : UInt32) : Moves (asking ok) (dmaWrite offset value) b := by
  refine .get_bind ?_
  split
  · exact .set_bind (.of_acts rfl) (.forM (fun i s => tryStart_asks i) _ _)
  split
  · refine .set_bind (.of_acts rfl) (.get_bind (.set_bind (.of_acts rfl) ?_))
    split
    · exact raise_asks _
    · exact .pure _
  split
  · exact .note _
  dsimp only
  split
  · exact .quiet_bind (.writeChannel _ _ _ _) (.set_bind (.of_acts rfl) (tryStart_asks _))
  · exact .lift (.of_acts rfl)

theorem acts_serialRead (c : Serial.Controller δ) (port : Nat) (offset : UInt32) (w : Width) :
    (c.read port offset w).record.acts = [] := by
  unfold Serial.Controller.read
  split
  · dsimp only
    split <;> rfl
  · rfl

theorem readGroup_acts {P : Act → Prop} (offset : UInt32) (w : Width) (g : Group) :
    Moves (acting P) (readGroup offset w g) b := by
  cases g with
  | memoryControl index => exact .get_bind (.pure _)
  | ramSize => exact .get_bind (.pure _)
  | interrupt index => exact .get_bind (.pure _)
  | serial port reg => exact .get_bind (.lift_then rfl (acting_of_acts (acts_serialRead _ _ _ _)))
  | dma reg =>
    exact .bind (.get_bind (.lift (acting_of_acts (acts_dmaRead _ _)))) fun _ _ _ => .pure _

theorem writeGroup_asks (offset value : UInt32) (w : Width) (g : Group) :
    Moves (asking ok) (writeGroup offset value w g) b := by
  cases g with
  | memoryControl index =>
    exact .get_bind (.lift_then rfl (.of_acts ((.writeMemoryControl _ _ _) : Reported.Quiet _).acts))
  | ramSize => exact .of_acts rfl
  | interrupt index =>
    exact .get_bind (.lift_then rfl (.of_acts ((.writeInterrupt _ _ _ _) : Reported.Quiet _).acts))
  | serial port reg =>
    exact .get_bind (.lift_then rfl (Serial.Controller.write_asks _ _ _ _ _ _ _))
  | dma reg =>
    exact .bind (.get_bind (.lift (.of_acts (acts_dmaRead _ _)))) fun _ _ _ => dmaWrite_asks _ _

theorem deviceRead_acts {P : Act → Prop} {addr : UInt32} {w : Width} (h : P (.deviceRead addr w)) :
    Moves (acting P) (deviceRead addr w) b := by
  intro a ha
  rw [List.mem_singleton.mp ha]
  exact h

theorem deviceWrite_asks {addr : UInt32} (h : ok addr) (value : UInt32) (w : Width) :
    Moves (asking ok) (deviceWrite addr value w) b := by
  intro a ha addr' ha'
  cases List.mem_singleton.mp ha
  cases ha'
  exact h

/-- The device sees the read, if anything does. -/
theorem read_acts {P : Act → Prop} {addr : UInt32} {w : Width} (h : P (.deviceRead addr w)) :
    Moves (acting P) (read addr w) b := by
  simp only [read]
  split
  · exact .lift_bind (acting_of_acts (acts_require _ _)) (.get_bind (.pure _))
  · exact .lift_bind (acting_of_acts (acts_require _ _)) (.get_bind (.pure _))
  · refine .bind ?_ fun r s _ => ?_
    · simp only [ioRead]
      split
      · exact .pure _
      · exact .bind (readGroup_acts _ _ _) fun _ _ _ => .quiet_bind (.note _) (.pure _)
    · cases r with
      | some value => exact .pure _
      | none => exact deviceRead_acts h
  · exact deviceRead_acts h

theorem read_asks {addr : UInt32} (h : ok addr) (w : Width) : Moves (asking ok) (read addr w) b :=
  read_acts fun addr' ha => by cases ha; exact h

theorem write_asks {addr : UInt32} (h : ok addr) (value : UInt32) (w : Width) :
    Moves (asking ok) (write addr value w) b :=
  write_moves (fun _ _ hr => .of_acts hr) (fun _ _ _ _ => writeGroup_asks _ _ _ _) fun _ =>
    deviceWrite_asks h value w

theorem refill_acts {P : Act → Prop} {a : ICache.Address} (h : ∀ w, P (.deviceRead (a.wordAddr w) .word))
    (ws : List (Fin 4)) (l : ICache.Line) :
    Moves (acting P) (ICache.refill (fun x => read x .word) a ws l) b := by
  induction ws generalizing l b with
  | nil => exact .pure _
  | cons w ws ih =>
    refine .bind (read_acts (h w)) fun r s _ => ?_
    cases r with
    | error e => exact .pure _
    | ok word => exact ih _

theorem fetchLine_acts {P : Act → Prop} (c : ICache) {addr : UInt32}
    (h : ∀ w, P (.deviceRead ((ICache.Address.of addr).wordAddr w) .word)) :
    Moves (acting P) (c.fetch addr fun a => read a .word) b := by
  unfold ICache.fetch
  dsimp only
  split
  · exact .quiet_bind (.note _) (.pure _)
  · refine .quiet_bind (.note _) (.bind (refill_acts h _ _) ?_)
    rintro ⟨refused, l⟩ s _
    cases refused <;> exact .pure _

theorem fetchLine_asks (c : ICache) {addr : UInt32}
    (h : ∀ w, ok ((ICache.Address.of addr).wordAddr w)) :
    Moves (asking ok) (c.fetch addr fun a => read a .word) b :=
  fetchLine_acts c fun w addr' ha => by cases ha; exact h w

end Bus
end R3000
