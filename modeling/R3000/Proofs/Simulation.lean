import R3000.Proofs.OperandClosure

/-! # Computations that go along with a change of the machine

From a machine with changed registers most computations do what they do from the machine itself. The
front and the multiply and divide unit are the parts that can be changed: only the reading of operands
and the writing of results look at the one, and a few instructions at the other. -/
namespace R3000.Machine
variable {γ δ α β : Type} {m t : Machine γ δ}

/-- From the changed machine `y` does what `x` does from the machine itself, up to the same change of
what comes out. -/
def Simulates (g : Machine γ δ → Machine γ δ) (y x : Run γ δ α) (m : Machine γ δ) : Prop :=
  y (g m) = (fun p => (p.1, g p.2)) <$> x m

namespace Simulates
variable {g : Machine γ δ → Machine γ δ}

theorem pure (a : α) : Simulates g (pure a) (pure a) m := rfl

theorem bind {x y : Run γ δ α} {f k : α → Run γ δ β} (hx : Simulates g y x m)
    (hf : ∀ a t, (x m).value = (a, t) → Simulates g (k a) (f a) t) :
    Simulates g (y >>= k) (x >>= f) m := by
  show (y (g m) >>= fun p => k p.1 p.2) = _ <$> (x m >>= fun p => f p.1 p.2)
  rw [hx, bind_map_left, map_bind]
  have h := hf _ _ rfl
  apply Reported.eq_of
  · rw [Reported.value_bind, Reported.value_bind]
    exact congrArg Reported.value h
  · rw [Reported.record_bind, Reported.record_bind]
    exact congrArg ((x m).record ++ ·) (congrArg Reported.record h)

theorem get_bind {f k : Machine γ δ → Run γ δ β} (hf : Simulates g (k (g m)) (f m) m) :
    Simulates g (get >>= k) (get >>= f) m := hf

theorem look {f : Machine γ δ → Run γ δ β} (hk : f (g m) = f m) (hf : Simulates g (f m) (f m) m) :
    Simulates g (get >>= f) (get >>= f) m := by
  apply get_bind
  rw [hk]
  exact hf

theorem modified {f k : Machine γ δ → Machine γ δ} (hf : k (g m) = g (f m)) :
    Simulates g (modify k : Run γ δ PUnit) (modify f) m := by
  show Pure.pure (_, k (g m)) = _
  rw [hf]
  rfl

theorem lift (x : Reported α) : Simulates g (liftM x : Run γ δ α) (liftM x) m := by
  show (x >>= fun a => Pure.pure (a, g m)) = _ <$> (x >>= fun a => Pure.pure (a, m))
  rw [map_bind]
  rfl

theorem exec_bind {x y : Exec γ δ α} {f k : α → Exec γ δ β} (hx : Simulates g y x m)
    (hf : ∀ a t, (x m).value = (.ok a, t) → Simulates g (k a : Run γ δ _) (f a) t) :
    Simulates g (y >>= k : Exec γ δ β) (x >>= f : Exec γ δ β) m := by
  refine bind (f := ExceptT.bindCont f) (k := ExceptT.bindCont k) hx ?_
  rintro (e | a) t h
  · exact pure _
  · exact hf a t h

theorem plain {x y : Run γ δ α} (hx : Simulates g y x m) :
    Simulates g (R3000.plain y) (R3000.plain x) m := by
  show (y (g m) >>= fun p => Pure.pure (Except.ok p.1, p.2)) =
    _ <$> (x m >>= fun p => Pure.pure (Except.ok p.1, p.2))
  rw [hx, bind_map_left, map_bind]
  rfl

theorem exec_get_bind {f k : Machine γ δ → Exec γ δ β}
    (hf : Simulates g (k (g m) : Run γ δ _) (f m) m) :
    Simulates g (get >>= k : Exec γ δ β) (get >>= f : Exec γ δ β) m := hf

theorem exec_look {f : Machine γ δ → Exec γ δ β} (hk : f (g m) = f m)
    (hf : Simulates g (f m : Run γ δ _) (f m) m) :
    Simulates g (get >>= f : Exec γ δ β) (get >>= f : Exec γ δ β) m := by
  apply exec_get_bind
  rw [hk]
  exact hf

theorem exec_lift (x : Reported α) : Simulates g (liftM x : Exec γ δ α) (liftM x : Exec γ δ α) m :=
  plain (lift x)

/-- What comes out is the same up to the change. -/
theorem value {x y : Run γ δ α} (h : Simulates g y x m) :
    (y (g m)).value = ((x m).value.1, g (x m).value.2) := by
  rw [h]
  rfl

theorem record {x y : Run γ δ α} (h : Simulates g y x m) : (y (g m)).record = (x m).record := by
  rw [h]
  exact Reported.record_map _ _

end Simulates

def around (φ : Front → Front) (ψ : Results → Results) (m : Machine γ δ) : Machine γ δ :=
  (m.withFront (φ m.front)).withResults (ψ m.results)

/-- From here it makes no difference whether the parts are changed before the computation or after. -/
def Ignores (φ : Front → Front) (ψ : Results → Results) (x : Run γ δ α) (m : Machine γ δ) : Prop :=
  Simulates (around φ ψ) x x m

namespace Ignores
variable {φ : Front → Front} {ψ : Results → Results}

theorem onBus (x : Bus.Op δ α) : Ignores φ ψ (onBus x : Run γ δ α) m := by
  refine Reported.eq_of rfl ?_
  rw [Reported.record_map]
  rfl

theorem spend (cycles : UInt64) : Ignores φ ψ (spend cycles : Run γ δ Unit) m :=
  .get_bind (.bind (.lift _) fun _ _ h => by
    cases h
    exact .modified rfl)

theorem awaitGte : Ignores φ ψ (awaitGte : Run γ δ Unit) m := by
  refine .get_bind ?_
  show Simulates _ (if m.cpu.clock.cycles < m.cpu.clock.gteReadyAt then _ else _)
    (if m.cpu.clock.cycles < m.cpu.clock.gteReadyAt then _ else _) m
  split
  · exact .bind (.lift _) fun _ _ h => by
      cases h
      exact .modified rfl
  · exact .pure _

theorem writeGte (f : Machine γ δ → γ) (hf : f (around φ ψ m) = f m) :
    Ignores φ ψ (modify fun m => { m with gteState := f m } : Exec γ δ PUnit) m := by
  show Pure.pure (_, { around φ ψ m with gteState := f (around φ ψ m) }) = _
  rw [hf]
  rfl

theorem commandGte (f : Register) : Ignores φ ψ (commandGte f : Exec γ δ Unit) m := by
  have hrest : ∀ (s : γ) (latency : UInt32) (t : Machine γ δ), Ignores φ ψ
      (do
        modify fun m => { m with gteState := s }
        let clock := (← get).cpu.clock
        let gteReadyAt ← count clock.cycles latency.toUInt64
        R3000.plain (Machine.setClock { clock with gteReadyAt }) : Exec γ δ Unit) t := by
    intro s latency t
    refine .exec_bind (writeGte _ rfl) fun _ u _ => .exec_get_bind ?_
    refine .exec_bind (.exec_lift _) fun _ _ h => ?_
    cases h
    exact .plain (.modified rfl)
  refine .exec_bind (.plain awaitGte) fun _ t _ => .exec_bind (.exec_lift _) fun _ _ h => ?_
  cases h
  refine .exec_look rfl ?_
  dsimp only
  split
  · exact .exec_bind (.exec_lift _) fun _ _ _ => hrest _ _ _
  · exact hrest _ _ _

/-- Whatever is accessed. -/
theorem closed (φ : Front → Front) (ψ : Results → Results) :
    ClosedBeside (γ := γ) (δ := δ) (fun _ _ => True) fun _ x m => Ignores φ ψ x m where
  ret _ _ := .pure _
  seq hx hf := .exec_bind hx hf
  fail _ _ := .pure _
  look hk hr hf := .exec_look ((hr _ _).trans (hk _ _)) hf
  report _ _ := .exec_lift _
  hit _ _ _ := .plain (.modified rfl)
  writeCaches _ _ _ := .plain (.modified rfl)
  await _ := .plain awaitGte
  pass _ _ := .plain (spend _)
  command f _ := commandGte f
  writeGte f _ hk hr := writeGte f ((hr _ _).trans (hk _ _))
  busRead _ _ _ _ := .plain (onBus _)
  busWrite _ _ _ _ _ := .plain (onBus _)
  fetchLine _ _ _ _ := .plain (onBus _)

theorem obtain (pc : UInt32) : Ignores φ ψ (obtain pc : Exec γ δ UInt32) m :=
  (closed φ ψ).obtain fun _ _ => ⟨trivial, fun _ => trivial⟩

theorem commandCop0 (f : Register) (pc : UInt32) :
    Ignores φ ψ (commandCop0 f pc : Exec γ δ Unit) m := by
  simp only [Machine.commandCop0]
  split
  iterate 4 exact .exec_lift _
  · exact .exec_bind (.exec_lift _) fun _ _ _ => .plain (.modified rfl)
  · exact .exec_lift _

theorem performCop0 (o : Operands) (pc : UInt32) (f : Register) :
    Ignores φ ψ (performCop0 o pc f : Exec γ δ Effect) m := by
  refine .exec_bind ((closed φ ψ).requireCop _) fun _ t _ => ?_
  split
  · exact .exec_bind (commandCop0 f pc) fun _ _ _ => .pure _
  split
  · refine .exec_look rfl ?_
    split
    · exact .pure _
    · exact .exec_bind (.exec_lift _) fun _ _ _ => .pure _
  · exact .exec_get_bind (.exec_bind (.exec_lift _) fun _ _ _ =>
      .exec_bind (.plain (.modified rfl)) fun _ _ _ => .pure _)
  · exact .exec_bind (.exec_lift _) fun _ _ _ => .pure _
  · exact .exec_bind (.exec_lift _) fun _ _ _ => .pure _
  · exact .pure _
  · exact .exec_bind (.exec_lift _) fun _ _ _ => .pure _

/-- The work of an instruction that does not use the unit. -/
theorem perform (o : Operands) (pc : UInt32) {i : Instruction} (hi : i.usesUnit = false) :
    Ignores φ ψ (perform o pc i : Exec γ δ Effect) m :=
  (closed φ ψ).perform (fun _ _ _ _ => trivial) pc (fun hu => by rw [hi] at hu; cases hu) fun f _ =>
    performCop0 o pc f

end Ignores
end R3000.Machine
