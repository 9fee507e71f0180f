import R3000.Proofs.Precision

/-! # Every instruction is precise

An instruction that raises an exception does so before it changes anything: the checks come first, the
one access to memory after them, and what follows the access raises none. -/
namespace R3000.Machine
variable {γ δ : Type} {m : Machine γ δ}

theorem gpr_total (r : Reg) : Total (gpr (γ := γ) (δ := δ) r) := by
  apply Total.get_bind
  intro m
  exact .pure _

theorem setGpr_total (r : Reg) (value : UInt32) : Total (setGpr (γ := γ) (δ := δ) r value) :=
  .bind (.plain _) fun _ => .plain _

theorem scheduleLoad_total (r : Reg) (value : UInt32) :
    Total (scheduleLoad (γ := γ) (δ := δ) r value) :=
  .bind (.lift _) fun _ => .plain _

theorem branch_total (taken : Bool) (target : UInt32) :
    Total (branch (γ := γ) (δ := δ) taken target) := by
  simp only [branch]
  split
  · exact .bind (.lift _) fun _ => .plain _
  · exact .plain _

theorem pendingGpr_total (r : Reg) : Total (pendingGpr (γ := γ) (δ := δ) r) := by
  apply Total.get_bind
  intro m
  exact .pure _

theorem resolveMulDiv_total : Total (resolveMulDiv (γ := γ) (δ := δ)) := by
  apply Total.get_bind
  intro m
  apply Total.bind (.lift _)
  intro resolved
  exact .bind (.plain _) fun _ => .pure _

theorem executeBranch_total (op : Branch) (f : Immediate) (pc : UInt32) :
    Total (executeBranch (γ := γ) (δ := δ) op f pc) := by
  apply Total.bind (gpr_total _)
  intro s
  apply Total.bind (gpr_total _)
  intro t
  dsimp only
  split
  · exact .bind (setGpr_total _ _) fun _ => branch_total _ _
  · exact branch_total _ _

theorem executeJump_total (op : JumpOp) (f : Jump) (pc : UInt32) :
    Total (executeJump (γ := γ) (δ := δ) op f pc) := by
  cases op with
  | j => exact branch_total true (jumpTarget pc f.target)
  | jal =>
    apply Total.bind (gpr_total _)
    intro sp
    apply Total.bind (.lift _)
    intro _
    exact .bind (setGpr_total _ _) fun _ => branch_total _ _

theorem commandCop0_total (f : Register) (pc : UInt32) :
    Total (commandCop0 (γ := γ) (δ := δ) f pc) := by
  simp only [commandCop0]
  split
  iterate 4 exact .lift _
  · exact .bind (.lift _) fun _ => .plain _
  · exact .lift _

theorem commandGte_total (f : Register) : Total (commandGte (γ := γ) (δ := δ) f) := by
  have hrest : ∀ (s : γ) (latency : UInt32), Total
      (do
        modify fun m => { m with gteState := s }
        let clock := (← get).cpu.clock
        let gteReadyAt ← count clock.cycles latency.toUInt64
        plain (setClock { clock with gteReadyAt }) : Exec γ δ Unit) := by
    intro s latency
    apply Total.bind (.modify _)
    intro _
    apply Total.get_bind
    intro m
    exact .bind (.lift _) fun _ => .plain _
  apply Total.bind (.plain _)
  intro _
  apply Total.bind (.lift _)
  intro _
  apply Total.get_bind
  intro m
  dsimp only
  split
  · exact .bind (.lift _) fun _ => hrest _ _
  · exact hrest _ _

theorem setResult_precise (r : Reg) (value : Option UInt32) :
    Precise (setResult (γ := γ) (δ := δ) r value) m := by
  cases value with
  | some v => exact .of_total (setGpr_total r v)
  | none => exact .of_kept (throw_kept _)

theorem executeCop0_precise (f : Register) (pc : UInt32) :
    Precise (executeCop0 (γ := γ) (δ := δ) f pc) m := by
  apply Precise.after (requireCop_kept _)
  intro _ t _
  apply Precise.of_total
  split
  · exact commandCop0_total f pc
  split
  · apply Total.get_bind
    intro m
    split
    · exact scheduleLoad_total _ _
    · exact .lift _
  · apply Total.get_bind
    intro m
    apply Total.bind (gpr_total _)
    intro v
    exact .bind (.lift _) fun _ => .plain _
  · exact .lift _
  · exact .lift _
  · exact branch_total _ _
  · exact .lift _

theorem executeCop2_precise (f : Register) (pc : UInt32) :
    Precise (executeCop2 (γ := γ) (δ := δ) f pc) m := by
  apply Precise.after (requireCop_kept _)
  intro _ t _
  apply Precise.of_total
  split
  · exact commandGte_total f
  split
  · apply Total.bind (.plain _)
    intro _
    exact .get_bind fun m => scheduleLoad_total _ _
  · apply Total.bind (.plain _)
    intro _
    exact .get_bind fun m => scheduleLoad_total _ _
  · exact .bind (gpr_total _) fun v => .modify _
  · exact .bind (gpr_total _) fun v => .modify _
  · exact branch_total _ _
  · exact .lift _

theorem loadCop_precise (z : Cop) (f : Immediate) :
    Precise (loadCop (γ := γ) (δ := δ) z f) m := by
  apply Precise.after (requireCop_kept z)
  intro _ t _
  apply Precise.after (effectiveAddress_kept _ _)
  intro vaddr u _
  split
  · exact .before (load_precise vaddr .word) fun v => .modify _
  · exact .of_total (.lift _)

theorem storeCop_precise (z : Cop) (f : Immediate) :
    Precise (storeCop (γ := γ) (δ := δ) z f) m := by
  apply Precise.after (requireCop_kept z)
  intro _ t _
  apply Precise.after (effectiveAddress_kept _ _)
  intro vaddr u _
  split
  · apply Precise.after (.plain awaitGte_kept)
    intro _ v _
    exact .get_bind (store_precise _ _ _)
  · exact .of_total (.lift _)

theorem loaded_precise (op : Load) (rt : Reg) (vaddr : UInt32) :
    Precise (loaded (γ := γ) (δ := δ) op rt vaddr) m := by
  cases op with
  | lb | lh => exact .before (load_precise _ _) fun _ => .pure _
  | lbu | lhu | lw => exact load_precise _ _
  | lwl | lwr =>
    apply Precise.before (load_precise _ _)
    intro word
    exact .bind (pendingGpr_total rt) fun _ => .pure _

theorem executeStore_precise (op : Store) (vaddr value : UInt32) :
    Precise (executeStore (γ := γ) (δ := δ) op vaddr value) m := by
  cases op with
  | sb | sh | sw => exact store_precise _ _ _
  | swl =>
    rw [executeStore_swl]
    apply storePieces_precise
    intro p hp
    exact List.mem_append_left _ hp
  | swr =>
    rw [executeStore_swr]
    apply storePieces_precise
    intro p hp
    exact List.mem_append_right _ hp

theorem executeImmediate_precise (op : ImmediateOp) (f : Immediate) (pc : UInt32) :
    Precise (executeImmediate (γ := γ) (δ := δ) op f pc) m := by
  cases op with
  | alu op => exact .after (gpr_kept _) fun s _ _ => setResult_precise _ _
  | branch op => exact .of_total (executeBranch_total op f pc)
  | load op =>
    apply Precise.after (effectiveAddress_kept _ _)
    intro vaddr t _
    exact .before (loaded_precise op f.rt vaddr) fun v => scheduleLoad_total _ _
  | store op =>
    apply Precise.after (effectiveAddress_kept _ _)
    intro vaddr t _
    apply Precise.after (gpr_kept _)
    intro v u _
    exact executeStore_precise op vaddr v
  | lwc z => exact loadCop_precise z f
  | swc z => exact storeCop_precise z f

theorem executeRegister_precise (op : RegisterOp) (f : Register) (pc : UInt32) :
    Precise (executeRegister (γ := γ) (δ := δ) op f pc) m := by
  cases op with
  | alu op =>
    apply Precise.after (gpr_kept _)
    intro s t _
    exact .after (gpr_kept _) fun _ _ _ => setResult_precise _ _
  | shift op => exact .of_total (.bind (gpr_total _) fun t => setGpr_total _ _)
  | shiftBy op =>
    apply Precise.of_total
    apply Total.bind (gpr_total _)
    intro t
    exact .bind (gpr_total _) fun s => setGpr_total _ _
  | muldiv op =>
    apply Precise.of_total
    apply Total.bind (gpr_total _)
    intro s
    exact .bind (gpr_total _) fun t => .plain _
  | jr => exact .of_total (.bind (gpr_total _) fun s => branch_total _ _)
  | jalr =>
    apply Precise.of_total
    apply Total.bind (gpr_total _)
    intro target
    apply Total.bind (gpr_total _)
    intro sp
    apply Total.bind (.lift _)
    intro _
    exact .bind (setGpr_total _ _) fun _ => branch_total _ _
  | syscall => exact .after (gpr_kept _) fun a _ _ => .of_kept (note_throw_kept _ _)
  | brk => exact .of_kept (note_throw_kept _ _)
  | mfhi | mflo =>
    apply Precise.of_total
    apply Total.bind resolveMulDiv_total
    intro stall
    apply Total.bind (.plain _)
    intro _
    exact .get_bind fun m => setGpr_total _ _
  | mthi | mtlo =>
    apply Precise.of_total
    apply Total.bind resolveMulDiv_total
    intro _
    exact .bind (gpr_total _) fun v => .plain _
  | cop z =>
    match z with
    | 0 => exact executeCop0_precise f pc
    | 2 => exact executeCop2_precise f pc
    | 1 | 3 => exact .of_kept (requireCop_kept _)

/-- Whatever instruction raises an exception has changed nothing by then. -/
theorem execute_precise (i : Instruction) (pc : UInt32) :
    Precise (execute (γ := γ) (δ := δ) i pc) m := by
  cases i with
  | immediate op f => exact executeImmediate_precise op f pc
  | jump op f => exact .of_total (executeJump_total op f pc)
  | register op f => exact executeRegister_precise op f pc

theorem executeWord_precise (word pc : UInt32) :
    Precise (executeWord (γ := γ) (δ := δ) word pc) m := by
  simp only [executeWord]
  split
  · exact .after (note_kept _) fun _ _ _ => execute_precise _ pc
  · exact .of_kept (note_kept _)

end R3000.Machine
