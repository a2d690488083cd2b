import ServiceShell.Proofs.Ways
/-!
Once its way is chosen, what runs in this process looks neither at the access of its unit nor at its
fidelities: with others in their place it does the same, and leaves the same unit but for these.
-/
namespace ServiceShell
variable {σ : Type}

namespace Shell
variable {access : Access} {fidelities : Fidelities}

theorem realize_restate (args : List Argument) (dependers : List Depender) (core : Core) :
    realize (σ := σ) args dependers (core.restate access fidelities) =
      Prod.map (Core.restate access fidelities) id <$> realize args dependers core := by
  induction dependers generalizing core with
  | nil => rfl
  | cons depender rest ih =>
    obtain ⟨name, run⟩ := depender
    unfold realize
    rw [map_bind]
    refine congrArg (Run.emit _ >>= ·) (funext fun _ => ?_)
    simp only [Core.restate_context]
    obtain ⟨context, fault⟩ := run core.context args
    cases fault with
    | none => exact ih { core with context }
    | some fault => rfl

theorem withOutcome_restate (core : Core) (outcome : Context × Option Fault) :
    (core.restate access fidelities).withOutcome outcome =
      (core.withOutcome outcome).restate access fidelities := by
  obtain ⟨context, _ | fault⟩ := outcome <;> rfl

theorem runCode_restate (event : Event) (failure : Fault → Note) (core : Core)
    (outcome : Context × Option Fault) :
    runCode (σ := σ) event failure (core.restate access fidelities) outcome =
      Core.restate access fidelities <$> runCode event failure core outcome := by
  unfold runCode
  rw [withOutcome_restate]
  simp only [map_bind, map_pure]

theorem compute_restate (core : Core) (procedures : List Procedure)
    (failure : String → Fault → Note) :
    compute (σ := σ) (core.restate access fidelities) procedures failure =
      Core.restate access fidelities <$> compute core procedures failure := by
  rw [compute_eq, compute_eq]
  exact runCode_restate _ _ _ _

theorem operate_restate (core : Core) (signature : Signature) (operation : Operation) :
    operate (σ := σ) (core.restate access fidelities) signature operation =
      Core.restate access fidelities <$> operate core signature operation := by
  rw [operate_eq, operate_eq]
  exact runCode_restate _ _ (core.mapControl (·.noteService signature)) _

theorem takeBack_restate (core result : Core) :
    takeBack (core.restate access fidelities) result =
      (takeBack core result).restate access fidelities := by
  unfold takeBack
  dsimp only
  split <;> rfl

theorem served_restate (core : Core) (standIn : Work) :
    served (core.restate access fidelities) standIn =
      (served core standIn).restate access fidelities := by
  unfold served
  cases standIn.core.processSignature <;> rfl

theorem runStep_restate (shell : Shell σ) (call : Call) (core : Core) (signature : Signature) :
    shell.runStep call (core.restate access fidelities) signature =
      Prod.map (Core.restate access fidelities) id <$> shell.runStep call core signature := by
  rw [runStep_eq, runStep_eq, map_bind]
  refine congrArg (_ >>= ·) (funext fun id => ?_)
  rw [map_bind]
  refine congrArg (_ >>= ·) (funext fun ended => ?_)
  unfold stepped
  dsimp only
  split <;> rfl

section Flow
variable {step : Core → Signature → Run σ (Core × StepResult)} {change : Core → Core}
  (hstep : ∀ core signature,
    step (change core) signature = Prod.map change id <$> step core signature)
include hstep

theorem runUntilFailure_map (signatures : List Signature) (core : Core) :
    runUntilFailure step (change core) signatures =
      Prod.map change id <$> runUntilFailure step core signatures := by
  induction signatures generalizing core with
  | nil => rfl
  | cons signature rest ih =>
    unfold runUntilFailure
    rw [hstep, bind_map_left, map_bind]
    refine congrArg (_ >>= ·) (funext fun ended => ?_)
    obtain ⟨core, _ | faults⟩ := ended
    · exact ih core
    · rfl

theorem runUntilSuccess_map (signatures : List Signature) (core : Core) (faults : List Fault) :
    runUntilSuccess step (change core) faults signatures =
      Prod.map change id <$> runUntilSuccess step core faults signatures := by
  induction signatures generalizing core faults with
  | nil => rfl
  | cons signature rest ih =>
    unfold runUntilSuccess
    rw [hstep, bind_map_left, map_bind]
    refine congrArg (_ >>= ·) (funext fun ended => ?_)
    obtain ⟨core, _ | more⟩ := ended
    · rfl
    · exact ih core (faults ++ more)

end Flow

theorem failWith_restate (core : Core) (faults : List Fault) (summary : String) :
    failWith (core.restate access fidelities) faults summary =
      (failWith core faults summary).restate access fidelities := by
  have hlog : faults.foldl Core.fail (core.restate access fidelities) =
      (faults.foldl Core.fail core).restate access fidelities := by
    induction faults generalizing core with
    | nil => rfl
    | cons fault rest ih => exact ih (core.fail fault)
  unfold failWith
  split
  · rfl
  · exact hlog

theorem runFlow_restate (shell : Shell σ) (call : Call) {core : Core}
    (hselects : fidelities.selects = core.fidelities.selects) :
    runFlow (shell.runStep call) (core.restate access fidelities) =
      Core.restate access fidelities <$> runFlow (shell.runStep call) core := by
  have hsteps (core : Core) (signature : Signature) :
      shell.runStep call (core.restate access fidelities) signature =
        Prod.map (Core.restate access fidelities) id <$> shell.runStep call core signature :=
    shell.runStep_restate call core signature
  have hsame : (core.restate access fidelities).fidelities.selects = core.fidelities.selects :=
    hselects
  unfold runFlow
  rw [hsame]
  dsimp only
  rw [map_bind, runUntilFailure_map hsteps, bind_map_left]
  refine congrArg (_ >>= ·) (funext fun prepared => ?_)
  obtain ⟨prepared, _ | faults⟩ := prepared
  · dsimp only [Prod.map, id]
    rw [map_bind, runUntilSuccess_map hsteps, bind_map_left]
    refine congrArg (_ >>= ·) (funext fun processed => ?_)
    obtain ⟨processed, _ | faults⟩ := processed
    · dsimp only [Prod.map, id]
      rw [map_bind, runUntilFailure_map hsteps, bind_map_left]
      refine congrArg (_ >>= ·) (funext fun ended => ?_)
      obtain ⟨ended, _ | faults⟩ := ended
      · rfl
      · exact congrArg pure (failWith_restate ended faults _)
    · exact congrArg pure (failWith_restate processed faults _)
  · exact congrArg pure (failWith_restate prepared faults _)

theorem runJob_restate (core : Core) (resuming : Bool) (runners : List (Runner σ)) :
    runJob (core.restate access fidelities) resuming runners =
      Prod.map (Core.restate access fidelities) id <$> runJob core resuming runners := by
  unfold runJob
  rw [map_bind]
  refine congrArg (_ >>= ·) (funext fun run => ?_)
  dsimp only
  split <;> rfl

theorem runBlock_restate (core : Core) (resuming : Bool) (runners : List (Runner σ)) :
    runBlock (core.restate access fidelities) resuming runners =
      Prod.map (Core.restate access fidelities) id <$> runBlock core resuming runners := by
  unfold runBlock
  rw [map_bind]
  refine congrArg (_ >>= ·) (funext fun run => ?_)
  dsimp only
  split <;> rfl

end Shell
end ServiceShell
