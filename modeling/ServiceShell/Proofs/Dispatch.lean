import ServiceShell.Proofs.Preparation
import ServiceShell.Proofs.Run
/-!
The unit that is left by each layer around an execution, in terms of the unit that the execution
leaves. None of the layers touches the world before the execution starts.
-/
namespace ServiceShell

def Depender.realizeAll (args : List Argument) : List Depender → Context → Context × Option Fault
  | [], context => (context, none)
  | depender :: rest, context =>
    match depender.realize context args with
    | (context, none) => realizeAll args rest context
    | (context, some fault) => (context, some fault)

def Attempt.ended (attempt : Attempt) : Dispatched :=
  match attempt.result with
  | .ok _ => ⟨attempt.work, .ok ()⟩
  | .error error =>
    ⟨attempt.work.mapCore (·.fail error.asRoutine.toFault), .error error.asRoutine⟩

def Attempt.finished (attempt : Attempt) : Attempt :=
  match attempt.result with
  | .ok _ => { attempt with work := attempt.work.mapCore Core.finish }
  | .error _ => attempt

def Core.withOutcome (core : Core) : Context × Option Fault → Core
  | (context, none) => { core with context }
  | (context, some fault) => Core.fail { core with context } fault

namespace Shell
variable {σ : Type} (shell : Shell σ)

theorem supervise_value {call : Call} {work : Work} {execute : Work → Run σ Attempt}
    (hdepth : call.depth ≤ shell.config.maxDelegationDepth) (world : World σ) :
    (shell.supervise call work execute world).value = (execute work world).value.ended := by
  unfold supervise Attempt.ended
  rw [if_neg (Nat.not_lt.mpr hdepth)]
  simp only [Run.bind_apply, Run.emit_apply, Run.note_apply]
  generalize (execute work world).value = attempt
  generalize (execute work world).world = later
  cases attempt.result with
  | error e => rfl
  | ok route =>
    dsimp only
    split <;> rfl

theorem realize_apply (args : List Argument) (dependers : List Depender) (core : Core)
    (world : World σ) :
    let realized := Depender.realizeAll args dependers core.context
    (realize args dependers core world).value =
        ({ core with context := realized.1 }, match realized.2 with
          | none => .ok ()
          | some fault => .error (DispatchError.fault fault).asRoutine) ∧
      (realize args dependers core world).world = world := by
  induction dependers generalizing core with
  | nil => exact ⟨rfl, rfl⟩
  | cons depender rest ih =>
    unfold realize Depender.realizeAll
    obtain ⟨context, fault⟩ := depender.realize core.context args
    cases fault with
    | none => exact ih { core with context }
    | some fault => exact ⟨rfl, rfl⟩

theorem proceed_value {call : Call} {work : Work} {route : Core → Bool → Run σ Attempt}
    (world : World σ) :
    (proceed call work route world).value =
      match Depender.realizeAll call.args work.core.dependers work.core.context with
      | (context, none) =>
        (route (Core.setStatus { work.core with context } .running)
          work.core.status.isResumable world).value.finished
      | (context, some fault) =>
        ⟨{ work with core := { work.core with context } },
          .error (DispatchError.fault fault).asRoutine⟩ := by
  obtain ⟨hvalue, hworld⟩ := realize_apply call.args work.core.dependers work.core world
  unfold proceed
  simp only [Run.bind_apply, hvalue, hworld]
  obtain ⟨context, fault⟩ := Depender.realizeAll call.args work.core.dependers work.core.context
  cases fault with
  | some fault => rfl
  | none =>
    simp only [Run.bind_apply, Attempt.finished]
    generalize (route _ work.core.status.isResumable world).value = attempt
    cases attempt.result <;> rfl

def operated (core : Core) (signature : Signature) (operation : Operation) : Core :=
  let (context, fault) := operation signature.selector core.context
  let core := { core.mapControl (·.noteService signature) with context }
  match fault with
  | none => core
  | some fault => core.fail fault

theorem operated_eq (core : Core) (signature : Signature) (operation : Operation) :
    operated core signature operation = (core.mapControl (·.noteService signature)).withOutcome
      (operation signature.selector core.context) := by
  unfold operated Core.withOutcome
  cases operation signature.selector core.context with
  | mk context fault => cases fault <;> rfl

/-- Code runs in this process: it says so, and notes its fault if it fails. -/
def runCode (event : Event) (failure : Fault → Note) (core : Core)
    (outcome : Context × Option Fault) : Run σ Core := do
  Run.emit event
  Run.noteAll (outcome.2.toList.map failure)
  return core.withOutcome outcome

theorem runCode_apply (event : Event) (failure : Fault → Note) (core : Core)
    (outcome : Context × Option Fault) (world : World σ) :
    runCode event failure core outcome world = ⟨core.withOutcome outcome, world,
      event :: outcome.2.toList.map fun fault => .note (failure fault)⟩ := by
  simp [runCode, Run.noteAll]

theorem operate_eq (core : Core) (signature : Signature) (operation : Operation) :
    operate (σ := σ) core signature operation = runCode (.operated core.id signature)
      (.taskFailed core.name) (core.mapControl (·.noteService signature))
      (operation signature.selector core.context) := by
  unfold operate runCode
  simp only [Core.mapControl]
  obtain ⟨context, fault⟩ := operation signature.selector core.context
  cases fault <;> rfl

theorem compute_eq (core : Core) (procedures : List Procedure) (failure : String → Fault → Note) :
    compute (σ := σ) core procedures failure = runCode (.computed core.id procedures)
      (failure core.name) core (Procedure.runAll procedures core.context) := by
  unfold compute runCode
  obtain ⟨context, fault⟩ := Procedure.runAll procedures core.context
  cases fault <;> rfl

theorem operate_value (core : Core) (signature : Signature) (operation : Operation)
    (world : World σ) :
    (operate core signature operation world).value = operated core signature operation := by
  rw [operate_eq, runCode_apply, operated_eq]

theorem compute_value (core : Core) (procedures : List Procedure) (failure : String → Fault → Note)
    (world : World σ) : (compute core procedures failure world).value =
      core.withOutcome (Procedure.runAll procedures core.context) := by
  rw [compute_eq, runCode_apply]

theorem Runner.runIn_value (runner : Runner σ) (kind : Kind) (parent : String) (context : Context)
    (world : World σ) :
    (runner.runIn kind parent context world).value =
      (runner.dispatch (runner.child.core.mapContext (·.withScope context)) world).value.work.mapCore
        (·.mapContext .clearScope) := by
  unfold runIn
  simp only [Run.bind_apply]
  cases (runner.dispatch (runner.child.core.mapContext (·.withScope context)) world).value.result <;>
    rfl

@[simp] theorem runner_child (call : Call) (child : Work) :
    (shell.runner call child).child = child := by
  cases child
  unfold runner
  rfl

theorem runner_dispatch (call : Call) (child : Work) (core : Core) :
    (shell.runner call child).dispatch core = shell.supervise call { child with core } fun child' =>
      proceed call child' fun core resuming => shell.execute call core resuming child.body := by
  cases child
  unfold runner
  rfl

theorem runners_eq_map (call : Call) (children : List Work) :
    shell.runners call children = children.map (shell.runner call) := by
  induction children with
  | nil => unfold runners; rfl
  | cons child rest ih =>
    unfold runners
    rw [ih, List.map_cons]

def executePrepared (call : Call) (work : Work) : Run σ Attempt :=
  match prepare call.args work with
  | .error error => pure ⟨work, .error error⟩
  | .ok ready => proceed call ready fun core resuming => shell.execute call core resuming ready.body

theorem executePrepared_ok (call : Call) {work ready : Work}
    (hprepare : prepare call.args work = .ok ready) :
    shell.executePrepared call work = proceed call ready fun core resuming =>
      shell.execute call core resuming ready.body := by
  unfold executePrepared
  rw [hprepare]

theorem executePrepared_error (call : Call) {work : Work} {error : DispatchError}
    (hprepare : prepare call.args work = .error error) :
    shell.executePrepared call work = pure ⟨work, .error error⟩ := by
  unfold executePrepared
  rw [hprepare]

theorem dispatch_apply (call : Call) (work : Work) (world : World σ) :
    let ended := shell.supervise call work (shell.executePrepared call) world
    shell.dispatch call work world = ⟨ended.value, ended.world, ended.events ++ [.flushed]⟩ := rfl

theorem dispatch_value (call : Call) {work ready : Work}
    (hdepth : call.depth ≤ shell.config.maxDelegationDepth)
    (hprepare : prepare call.args work = .ok ready) (world : World σ) :
    (shell.dispatch call work world).value =
      (proceed call ready (fun core resuming =>
        shell.execute call core resuming ready.body) world).value.ended := by
  rw [dispatch_apply]
  dsimp only
  rw [shell.supervise_value hdepth, shell.executePrepared_ok call hprepare]

theorem trySubmit_value {args : List Argument} {work ready : Work}
    (hprepare : prepare args work = .ok ready) (txn : Option Transaction) (world : World σ) :
    (shell.trySubmit work txn args world).value =
      (proceed ⟨0, txn, none, args⟩ ready (fun core resuming =>
        shell.execute ⟨0, txn, none, args⟩ core resuming ready.body) world).value.ended :=
  shell.dispatch_value (Call.mk 0 txn none args) (Nat.zero_le _) hprepare world

def finding (answer : Option Handle) : Shell Unit where
  config := .default
  collaborators :=
    { now := fun _ => 0
      freshId := fun _ => (.ofNat 0, ())
      locate := fun _ _ _ => (.ok answer, ())
      find := fun _ _ => (.ok answer, ())
      ping := fun _ _ => (.ok (), ())
      invoke := fun _ _ _ _ _ => (.ok none, ())
      exclusion := none }

end Shell
end ServiceShell
