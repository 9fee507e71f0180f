import R3000.Machine

/-! # Motions

A motion says how far a computation may carry its state: it relates a state, the record left since,
and a later state. To stand still with any notices is a motion, and so is one motion after another;
hence a computation moves as its parts do. -/
namespace R3000

theorem acts_require (safe : Bool) (f : Fault) : (require safe f).record.acts = [] := by
  simp only [require]
  split <;> rfl

structure Reported.Quiet {α : Type} (x : Reported α) : Prop where
  acts : x.record.acts = []
  faults : x.record.faults = []

namespace Reported.Quiet
variable {α β : Type}

theorem pure (a : α) : Quiet (Pure.pure a : Reported α) := ⟨rfl, rfl⟩

theorem note (n : Notice) : Quiet (R3000.note n) := ⟨rfl, rfl⟩

theorem require_true {safe : Bool} {e : Fault} (h : safe = true) : Quiet (require safe e) := by
  subst h
  exact ⟨rfl, rfl⟩

theorem bind {x : Reported α} {f : α → Reported β} (hx : x.Quiet) (hf : (f x.value).Quiet) :
    (x >>= f).Quiet :=
  ⟨by simp [hx.acts, hf.acts], by simp [hx.faults, hf.faults]⟩

theorem note_bind {n : Notice} {f : Unit → Reported β} (hf : (f ()).Quiet) :
    (R3000.note n >>= f).Quiet :=
  (note n).bind hf

theorem require_bind {safe : Bool} {e : Fault} {f : Unit → Reported β} (h : safe = true)
    (hf : (f ()).Quiet) : (require safe e >>= f).Quiet :=
  (require_true h).bind hf

end Reported.Quiet

/-- A computation that leaves nothing but notices, and gives a value that `Q` accepts. -/
structure Reported.Ensures {α : Type} (x : Reported α) (Q : α → Prop) : Prop where
  quiet : x.Quiet
  value : Q x.value

namespace Reported.Ensures
variable {α β : Type} {Q : α → Prop} {R : β → Prop}

theorem pure {a : α} (h : Q a) : Ensures (Pure.pure a) Q := ⟨.pure a, h⟩

theorem bind {x : Reported α} {f : α → Reported β} (hx : x.Ensures Q)
    (hf : ∀ a, Q a → (f a).Ensures R) : (x >>= f).Ensures R :=
  ⟨hx.quiet.bind (hf _ hx.value).quiet, (hf _ hx.value).value⟩

theorem note_bind {n : Notice} {f : Unit → Reported β} (hf : (f ()).Ensures R) :
    (R3000.note n >>= f).Ensures R :=
  ⟨.note_bind hf.quiet, hf.value⟩

theorem require_bind {safe : Bool} {e : Fault} {f : Unit → Reported β} (h : safe = true)
    (hf : (f ()).Ensures R) : (require safe e >>= f).Ensures R :=
  ⟨.require_bind h hf.quiet, hf.value⟩

end Reported.Ensures

structure Motion (σ : Type) where
  holds : σ → Record → σ → Prop
  still : ∀ s notices, holds s { notices } s
  trans : ∀ {s t u r q}, holds s r t → holds t q u → holds s (r ++ q) u

theorem Motion.quiet {σ α : Type} (T : Motion σ) {x : Reported α} (h : x.Quiet) (s : σ) :
    T.holds s x.record s := by
  obtain ⟨_, ⟨_, _, _⟩⟩ := x
  obtain ⟨rfl, rfl⟩ := h
  exact T.still s _

/-- States stay in an invariant, and from there only faults that `ok` excuses are left. -/
def Motion.invariant {σ : Type} (I : σ → Prop) (ok : Fault → Prop) : Motion σ where
  holds s r t := I s → I t ∧ ∀ f ∈ r.faults, ok f
  still _ _ hs := ⟨hs, nofun⟩
  trans h₁ h₂ hs := by
    obtain ⟨ht, hr⟩ := h₁ hs
    obtain ⟨hu, hq⟩ := h₂ ht
    refine ⟨hu, fun f hf => ?_⟩
    rw [Record.faults_append, List.mem_append] at hf
    exact hf.elim (hr f) (hq f)

/-- A sequence, once it is known what its first part comes to. -/
theorem bind_of_value {σ α β : Type} {x : StateT σ Reported α} {s t : σ} {a : α}
    (h : (x s).value = (a, t)) (f : α → StateT σ Reported β) :
    (x >>= f) s = ⟨(f a t).value, (x s).record ++ (f a t).record⟩ := by
  show (x s >>= fun p => f p.1 p.2) = _
  refine Reported.eq_of ?_ ?_
  · rw [Reported.value_bind, h]
  · rw [Reported.record_bind, h]

theorem value_bind_of_value {σ α β : Type} {x : StateT σ Reported α} {s t : σ} {a : α}
    (h : (x s).value = (a, t)) (f : α → StateT σ Reported β) : ((x >>= f) s).value = (f a t).value := by
  rw [bind_of_value h]

/-- From `s` the computation carries the state as the motion allows. -/
def Moves {σ α : Type} (T : Motion σ) (x : StateT σ Reported α) (s : σ) : Prop :=
  T.holds s (x s).record (x s).value.2

namespace Moves
variable {σ α β : Type} {T : Motion σ} {s : σ}

/-- What a computation that moves so has led to. -/
theorem holds {x : StateT σ Reported α} (hx : Moves T x s) {a : α} {t : σ} (h : (x s).value = (a, t)) :
    T.holds s (x s).record t := by
  unfold Moves at hx
  rwa [h] at hx

theorem pure (a : α) : Moves T (pure a) s := T.still s []

theorem bind {x : StateT σ Reported α} {f : α → StateT σ Reported β} (hx : Moves T x s)
    (hf : ∀ a t, (x s).value = (a, t) → Moves T (f a) t) : Moves T (x >>= f) s :=
  T.trans hx (hf _ _ rfl)

theorem get_bind {f : σ → StateT σ Reported β} (hf : Moves T (f s) s) :
    Moves T (get >>= f) s := hf

theorem set_bind {t : σ} {f : PUnit → StateT σ Reported β} (h : T.holds s {} t)
    (hf : Moves T (f ⟨⟩) t) : Moves T (set t >>= f) s :=
  T.trans h hf

theorem modify {f : σ → σ} (h : T.holds s {} (f s)) : Moves T (modify f) s := h

theorem note (n : Notice) : Moves T (liftM (note n)) s := T.still s [n]

theorem lift {x : Reported α} (hx : T.holds s x.record s) : Moves T (liftM x) s := by
  show T.holds s (x.record ++ {}) s
  rw [Record.append_empty]
  exact hx

theorem lift_bind {x : Reported α} {f : α → StateT σ Reported β} (hx : T.holds s x.record s)
    (hf : Moves T (f x.value) s) : Moves T (liftM x >>= f) s := by
  refine bind (lift hx) ?_
  rintro a t h
  cases h
  exact hf

/-- A computation whose value goes straight into the state. -/
theorem lift_then {x : Reported α} {f : α → StateT σ Reported β} {b : β} {t : σ}
    (hf : f x.value s = Pure.pure (b, t)) (h : T.holds s x.record t) :
    Moves T (liftM x >>= f) s := by
  show T.holds s ((x.record ++ {}) ++ (f x.value s).record) (f x.value s).value.2
  rw [hf, Record.append_empty]
  exact T.trans h (T.still t [])

theorem quiet_bind {x : Reported α} {f : α → StateT σ Reported β} (hx : x.Quiet)
    (hf : Moves T (f x.value) s) : Moves T (liftM x >>= f) s :=
  lift_bind (T.quiet hx s) hf

theorem forM {f : α → StateT σ Reported PUnit} (hf : ∀ a s, Moves T (f a) s) (l : List α) (s : σ) :
    Moves T (l.forM f) s := by
  induction l generalizing s with
  | nil => exact pure _
  | cons a l ih => exact bind (hf a s) fun _ t _ => ih t

variable {γ δ : Type} {M : Motion (Machine γ δ)} {m : Machine γ δ}

theorem exec_bind {x : Exec γ δ α} {f : α → Exec γ δ β} (hx : Moves M x m)
    (hf : ∀ a t, (x m).value = (.ok a, t) → Moves M (f a) t) :
    Moves M (x >>= f : Exec γ δ β) m := by
  refine bind (f := ExceptT.bindCont f) hx ?_
  rintro (e | a) t h
  · exact M.still t []
  · exact hf a t h

theorem exec_get_bind {f : Machine γ δ → Exec γ δ β} (hf : Moves M (f m) m) :
    Moves M (get >>= f : Exec γ δ β) m :=
  exec_bind (M.still m []) fun a t h => by cases h; exact hf

theorem exec_lift {x : Reported α} (hx : M.holds m x.record m) :
    Moves M (liftM x : Exec γ δ α) m := by
  show M.holds m (x.record ++ {} ++ {}) m
  rw [Record.append_empty, Record.append_empty]
  exact hx

theorem exec_lift_bind {x : Reported α} {f : α → Exec γ δ β} (hx : M.holds m x.record m)
    (hf : Moves M (f x.value) m) : Moves M (liftM x >>= f : Exec γ δ β) m :=
  exec_bind (exec_lift hx) fun a t h => by cases h; exact hf

theorem plain {x : Run γ δ α} (hx : Moves M x m) : Moves M (R3000.plain x) m :=
  M.trans hx (M.still _ [])

/-- A motion of the bus is one of the machine, if it is allowed there. -/
theorem onBus {T : Motion (Bus δ)} {x : Bus.Op δ α} (hx : Moves T x m.bus)
    (h : ∀ r b, T.holds m.bus r b → M.holds m r { m with bus := b }) :
    Moves M (Machine.onBus x) m :=
  h _ _ hx

end Moves

/-- From `s` the computation leads to `t` without an outward act. -/
structure Leads {σ α : Type} (x : StateT σ Reported α) (s t : σ) : Prop where
  acts : (x s).record.acts = []
  state : (x s).value.2 = t

namespace Leads
variable {σ α β : Type} {s t u : σ}

theorem pure (a : α) : Leads (pure a) s s := ⟨rfl, rfl⟩

theorem set (t : σ) : Leads (set t) s t := ⟨rfl, rfl⟩

theorem bind {x : StateT σ Reported α} {f : α → StateT σ Reported β} (hx : Leads x s t)
    (hf : ∀ a, (x s).value.1 = a → Leads (f a) t u) : Leads (x >>= f) s u := by
  have hf := hf _ rfl
  rw [← hx.state] at hf
  refine ⟨?_, hf.state⟩
  show ((x s).record.acts ++ _ : List Act) = []
  rw [hx.acts, List.nil_append]
  exact hf.acts

theorem get_bind {f : σ → StateT σ Reported β} (hf : Leads (f s) s t) : Leads (get >>= f) s t :=
  ⟨hf.acts, hf.state⟩

theorem set_bind {f : PUnit → StateT σ Reported β} (hf : Leads (f ⟨⟩) t u) :
    Leads (MonadStateOf.set t >>= f) s u :=
  ⟨hf.acts, hf.state⟩

theorem modify_bind {g : σ → σ} {f : PUnit → StateT σ Reported β} (hf : Leads (f ⟨⟩) (g s) t) :
    Leads (modify g >>= f) s t :=
  ⟨hf.acts, hf.state⟩

theorem quiet_bind {x : Reported α} {f : α → StateT σ Reported β} (hx : x.Quiet)
    (hf : Leads (f x.value) s t) : Leads (liftM x >>= f) s t := by
  refine ⟨?_, hf.state⟩
  show ((x.record.acts ++ []) ++ _ : List Act) = []
  rw [hx.acts]
  exact hf.acts

/-- What comes after it runs from where it leads. -/
theorem then_eq {x : StateT σ Reported α} (hx : Leads x s t) (y : StateT σ Reported β) :
    ((x >>= fun _ => y) s).record.acts = (y t).record.acts ∧
      ((x >>= fun _ => y) s).value = (y t).value := by
  rw [← hx.state]
  refine ⟨?_, rfl⟩
  show ((x s).record.acts ++ _ : List Act) = _
  rw [hx.acts]
  rfl

theorem congr {x : StateT σ Reported α} (hx : Leads x s t) (h : t = u) : Leads x s u := h ▸ hx

end Leads
end R3000
