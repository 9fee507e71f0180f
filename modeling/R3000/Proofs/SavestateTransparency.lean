import R3000.Proofs.Reachability

/-! # Savestates are transparent

A machine restored from a savestate of another has everything that it consists of in common with that
one. Steps never look at the configuration, which is all that is left to differ once both have the same
peers; so both run alike from there on. -/
namespace R3000.Machine
variable {γ δ α β : Type} {m : Machine γ δ} {k : Config}

/-- The computation does the same under every configuration. -/
def Blind (x : Run γ δ α) : Prop :=
  ∀ m k, x (m.withConfig k) = (fun p => (p.1, p.2.withConfig k)) <$> x m

namespace Blind

theorem pure (a : α) : Blind (pure a : Run γ δ α) := fun _ _ => rfl

theorem bind_of_gives {x : Run γ δ α} {f : α → Run γ δ β} (hx : Blind x)
    (hf : ∀ m a t, (x m).value = (a, t) → Blind (f a)) : Blind (x >>= f) := by
  intro m k
  show (x (m.withConfig k) >>= fun p => f p.1 p.2) = _ <$> (x m >>= fun p => f p.1 p.2)
  rw [hx, bind_map_left, map_bind]
  have h := hf m _ _ rfl (x m).value.2 k
  apply Reported.eq_of
  · rw [Reported.value_bind, Reported.value_bind]
    exact congrArg Reported.value h
  · rw [Reported.record_bind, Reported.record_bind]
    exact congrArg ((x m).record ++ ·) (congrArg Reported.record h)

theorem bind {x : Run γ δ α} {f : α → Run γ δ β} (hx : Blind x) (hf : ∀ a, Blind (f a)) :
    Blind (x >>= f) :=
  bind_of_gives hx fun _ a _ _ => hf a

theorem get_bind {f : Machine γ δ → Run γ δ β} (hk : ∀ m k, f (m.withConfig k) = f m)
    (hf : ∀ m, Blind (f m)) : Blind (get >>= f) := by
  intro m k
  show f (m.withConfig k) (m.withConfig k) = _ <$> f m m
  rw [hk]
  exact hf m m k

theorem modified {f : Machine γ δ → Machine γ δ}
    (hf : ∀ m k, f (m.withConfig k) = (f m).withConfig k) : Blind (modify f : Run γ δ PUnit) := by
  intro m k
  show Pure.pure (_, f (m.withConfig k)) = _
  rw [hf]
  rfl

theorem lift (x : Reported α) : Blind (liftM x : Run γ δ α) := by
  intro m k
  show (x >>= fun a => Pure.pure (a, m.withConfig k)) = _ <$> (x >>= fun a => Pure.pure (a, m))
  rw [map_bind]
  rfl

theorem exec_bind {x : Exec γ δ α} {f : α → Exec γ δ β} (hx : Blind (x : Run γ δ _))
    (hf : ∀ a, Gives x a → Blind (f a : Run γ δ _)) : Blind (x >>= f : Exec γ δ β) := by
  refine bind_of_gives (f := ExceptT.bindCont f) hx ?_
  rintro m (e | a) t h
  · exact pure _
  · exact hf a ⟨m, t, h⟩

theorem plain {x : Run γ δ α} (hx : Blind x) : Blind (R3000.plain x) := by
  intro m k
  show (x (m.withConfig k) >>= fun p => Pure.pure (Except.ok p.1, p.2)) =
    _ <$> (x m >>= fun p => Pure.pure (Except.ok p.1, p.2))
  rw [hx, bind_map_left, map_bind]
  rfl

theorem onBus (x : Bus.Op δ α) : Blind (onBus x : Run γ δ α) := by
  intro m k
  refine Reported.eq_of rfl ?_
  rw [Reported.record_map]
  rfl

theorem modifyCpu (f : Cpu → Cpu) : Blind (modifyCpu f : Run γ δ Unit) := modified fun _ _ => rfl

theorem setClock (clock : Clock) : Blind (setClock clock : Run γ δ Unit) := modifyCpu _

theorem spend (cycles : UInt64) : Blind (spend cycles : Run γ δ Unit) :=
  get_bind (fun _ _ => rfl) fun _ => bind (lift _) fun _ => setClock _

theorem awaitGte : Blind (awaitGte : Run γ δ Unit) := by
  refine get_bind (fun _ _ => rfl) fun m => ?_
  dsimp only
  split
  · exact bind (lift _) fun _ => setClock _
  · exact pure _

theorem exec_get_bind {f : Machine γ δ → Exec γ δ β} (hk : ∀ m k, f (m.withConfig k) = f m)
    (hf : ∀ m, Blind (f m : Run γ δ _)) : Blind (get >>= f : Exec γ δ β) := by
  intro m k
  show f (m.withConfig k) (m.withConfig k) = _ <$> f m m
  rw [hk]
  exact hf m m k

theorem exec_lift (x : Reported α) : Blind (liftM x : Exec γ δ α) :=
  plain (lift x)

theorem writeGte (f : Machine γ δ → γ) (hf : ∀ m k, f (m.withConfig k) = f m) :
    Blind (modify fun m => { m with gteState := f m } : Exec γ δ PUnit) := by
  intro m k
  show Pure.pure (_, { m.withConfig k with gteState := f (m.withConfig k) }) = _
  rw [hf]
  rfl

theorem resolveMulDiv : Blind (resolveMulDiv : Exec γ δ UInt32) :=
  exec_get_bind (fun _ _ => rfl) fun _ => exec_bind (exec_lift _) fun _ _ =>
    exec_bind (plain (modifyCpu _)) fun _ _ => pure _

theorem closed : Closed (γ := γ) (δ := δ) fun _ x => Blind x where
  ret _ := pure _
  seq hx hf := exec_bind hx hf
  fail _ := pure _
  look hk hf := exec_get_bind hk hf
  report _ := exec_lift _
  writeGpr _ _ := plain (modifyCpu _)
  writeHi _ := plain (modifyCpu _)
  writeLo _ := plain (modifyCpu _)
  writeCop0 _ := plain (modifyCpu _)
  cancel _ := plain (modifyCpu _)
  schedule _ _ := plain (modifyCpu _)
  setBranch _ _ := plain (modifyCpu _)
  writeCaches _ := plain (modifyCpu _)
  issue _ _ _ := plain (modifyCpu _)
  resolve := resolveMulDiv
  await := plain awaitGte
  writeGte f hf := writeGte f hf
  busRead _ _ _ := plain (onBus _)
  busWrite _ _ _ _ := plain (onBus _)
  fetchLine _ _ := plain (onBus _)

theorem commandGte (f : Register) : Blind (commandGte f : Exec γ δ Unit) := by
  have hrest : ∀ (s : γ) (latency : UInt32), Blind
      (do
        modify fun m => { m with gteState := s }
        let clock := (← get).cpu.clock
        let gteReadyAt ← count clock.cycles latency.toUInt64
        R3000.plain (Machine.setClock { clock with gteReadyAt }) : Exec γ δ Unit) :=
    fun s latency => exec_bind (writeGte _ fun _ _ => rfl) fun _ _ =>
      exec_get_bind (fun _ _ => rfl) fun _ => exec_bind (exec_lift _) fun _ _ => plain (setClock _)
  refine exec_bind (plain awaitGte) fun _ _ => exec_bind (exec_lift _) fun _ _ =>
    exec_get_bind (fun _ _ => rfl) fun m => ?_
  dsimp only
  split
  · exact exec_bind (exec_lift _) fun _ _ => hrest _ _
  · exact hrest _ _

theorem executeWord (word pc : UInt32) : Blind (executeWord word pc : Exec γ δ Unit) :=
  closed.executeWord word pc (fun _ _ _ _ => plain (spend _)) fun f _ _ => commandGte f

theorem obtain (pc : UInt32) : Blind (obtain pc : Exec γ δ UInt32) :=
  closed.obtain pc (plain (spend _)) (plain (spend _))

theorem retire : Blind (retire : Run γ δ Unit) :=
  get_bind (fun _ _ => rfl) fun _ => bind (lift _) fun _ => modifyCpu _

theorem enterException (e : Exception) (pc : UInt32) :
    Blind (enterException e pc : Run γ δ Unit) :=
  get_bind (fun _ _ => rfl) fun _ => bind (lift _) fun _ => modifyCpu _

theorem abort (e : Exception) (pc : UInt32) : Blind (abort e pc : Run γ δ Unit) :=
  bind retire fun _ => enterException e pc

theorem complete (word pc : UInt32) : Blind (complete word pc : Run γ δ Unit) := by
  refine bind (executeWord word pc) fun outcome => bind retire fun _ =>
    get_bind (fun _ _ => rfl) fun _ => bind (lift _) fun _ => bind (setClock _) fun _ => ?_
  cases outcome with
  | ok _ => exact pure _
  | error e => exact enterException e pc

theorem step : Blind (step : Run γ δ Unit) := by
  refine bind (modified fun _ _ => rfl) fun _ => bind ?_ fun pc => bind (spend _) fun _ =>
    get_bind (fun _ _ => rfl) fun m => ?_
  · exact get_bind (fun _ _ => rfl) fun _ => bind (modifyCpu _) fun _ => pure _
  dsimp only
  split
  · exact bind (lift _) fun _ => abort _ pc
  · refine bind (obtain pc) fun r => ?_
    cases r with
    | error e => exact abort e pc
    | ok word => exact complete word pc

theorem next : Blind (next : Run γ δ UInt64) :=
  get_bind (fun _ _ => rfl) fun _ => bind step fun _ => get_bind (fun _ _ => rfl) fun _ =>
    bind (onBus _) fun _ => pure _

theorem runFrom (fuel : Nat) (budget elapsed : UInt64) (m : Machine γ δ) (k : Config)
    (seen : List Record) :
    runFrom fuel budget elapsed (m.withConfig k) seen =
      (fun p => (p.1, p.2.withConfig k)) <$> runFrom fuel budget elapsed m seen := by
  have hstop : ∀ (elapsed : UInt64) (m : Machine γ δ) (r : Record),
      (⟨(elapsed, m.withConfig k), r⟩ : Reported (UInt64 × Machine γ δ)) =
        (fun p => (p.1, p.2.withConfig k)) <$> (⟨(elapsed, m), r⟩ : Reported _) := by
    intro elapsed m r
    refine Reported.eq_of rfl ?_
    rw [Reported.record_map]
  induction fuel generalizing elapsed m seen with
  | zero => exact hstop _ _ _
  | succ fuel ih =>
    unfold Machine.runFrom
    split
    · dsimp only
      rw [next m k, Reported.record_map]
      exact ih _ _ _
    · exact hstop _ _ _

theorem run (budget : UInt64) : Blind (run budget : Run γ δ UInt64) := fun m k =>
  runFrom _ _ _ m k _

theorem runs (budgets : List UInt64) : Blind (budgets.mapM Machine.run : Run γ δ (List UInt64)) := by
  induction budgets with
  | nil => exact pure _
  | cons budget budgets ih =>
    rw [List.mapM_cons]
    exact bind (run budget) fun _ => bind ih fun _ => pure _

end Blind

theorem bind_apply_of_pure {x : Run γ δ α} {a : α} {t : Machine γ δ} (h : x m = pure (a, t))
    (y : Run γ δ β) : (x >>= fun _ => y) m = y t := by
  show (x m >>= fun p => y p.2) = y t
  rw [h, pure_bind]

/-- Everything that a host and its devices see of the state of a machine. -/
structure SameState {γ δ γ' δ' : Type} (c : Machine γ δ) (d : Machine γ' δ') : Prop where
  cpu : d.cpu = c.cpu
  ram : d.bus.ram = c.bus.ram
  memoryControl : d.bus.memoryControl = c.bus.memoryControl
  int : d.bus.int = c.bus.int
  ports : d.bus.serial.ports = c.bus.serial.ports
  channels : d.bus.dma.channels = c.bus.dma.channels
  dpcr : d.bus.dma.dpcr = c.bus.dma.dpcr
  dicr : d.bus.dma.dicr = c.bus.dma.dicr
  wordCycles : d.bus.dma.wordCycles = c.bus.dma.wordCycles

/-- The ROM, the geometry engine, the device, the world outside and whatever is bound are the same. -/
structure SamePeers (c d : Machine γ δ) : Prop where
  rom : d.bus.rom = c.bus.rom
  gte : d.gte = c.gte
  gteState : d.gteState = c.gteState
  device : d.bus.device = c.bus.device
  outside : d.bus.outside = c.bus.outside
  listeners : d.bus.serial.listeners = c.bus.serial.listeners
  readers : d.bus.dma.readers = c.bus.dma.readers
  writers : d.bus.dma.writers = c.bus.dma.writers

theorem restored_of_samePeers {c d : Machine γ δ} (h : SamePeers c d) :
    d.restored c.savestate = c.withConfig d.config := by
  obtain ⟨_, _, ⟨_, _, _, _, ⟨_, _⟩, ⟨_, _, _, _, _, _⟩, _, _⟩, _, _⟩ := c
  obtain ⟨_, _, ⟨_, _, _, _, ⟨_, _⟩, ⟨_, _, _, _, _, _⟩, _, _⟩, _, _⟩ := d
  obtain ⟨rfl, rfl, rfl, rfl, rfl, rfl, rfl, rfl⟩ := h
  rfl

/-- Any machine takes on the state that the savestate of another one holds, whatever follows it; and
with the same peers as that one it gives the same cycles, and leaves the same records and the same
state, for any budgets to run. -/
theorem restore_savestate (c : Machine γ δ) :
    (∀ {γ' δ' : Type} (d : Machine γ' δ') (extra : List UInt8),
      ∃ t, d.restore (c.savestate.toBytes ++ extra) = pure (.ok (), t) ∧ SameState c t) ∧
    ∀ (d : Machine γ δ) (extra : List UInt8), SamePeers c d → ∀ budgets : List UInt64,
      (do
        let _ ← restore (c.savestate.toBytes ++ extra)
        budgets.mapM run : Run γ δ (List UInt64)) d =
      (fun p => (p.1, p.2.withConfig d.config)) <$> (budgets.mapM run : Run γ δ (List UInt64)) c := by
  refine ⟨fun d extra => ⟨_, d.restore_toBytes c.savestate extra, ⟨rfl, rfl, rfl, rfl, rfl, rfl, rfl,
    rfl, rfl⟩⟩, fun d extra h budgets => ?_⟩
  rw [← Blind.runs budgets c d.config, ← restored_of_samePeers h]
  exact bind_apply_of_pure (d.restore_toBytes c.savestate extra) _

/-- A machine like `bare` but for its configuration and an interrupt that waits. -/
def raised : Machine Gte.Registers Unit := (onBus (Bus.raise 1) (bare.withConfig { prid := 3 })).value.2

theorem restore_savestate_raised :
    SamePeers raised bare ∧
      (do
        let _ ← restore (raised.savestate.toBytes ++ [7])
        [3, 5].mapM run : Run Gte.Registers Unit (List UInt64)) bare =
      (fun p => (p.1, p.2.withConfig bare.config)) <$>
        ([3, 5].mapM run : Run Gte.Registers Unit (List UInt64)) raised := by
  have h : SamePeers raised bare := ⟨rfl, rfl, rfl, rfl, rfl, rfl, rfl, rfl⟩
  exact ⟨h, (restore_savestate raised).2 bare [7] h [3, 5]⟩

end R3000.Machine
