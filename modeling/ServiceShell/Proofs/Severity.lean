import ServiceShell.Proofs.Status
/-!
What becomes of the severity of a fault. A fault that code raises gives its unit the state that it
stands for, also through any number of errands. That of a depender is logged as an exception, and of
the faults that end a flow only the last decides.
-/
namespace ServiceShell

/-- What a dispatch gets a fault from: a depender, code in this process, or the faults that end a
flow. -/
inductive Origin where
  | depender
  | code
  | flow (faults : List Fault)

def Origin.status (fault : Fault) : Origin → State
  | depender => .failed
  | code => .ofFault fault
  | flow faults => .ofFault (faults.getLastD fault)

theorem Origin.status_isFailure (fault : Fault) (origin : Origin) :
    (origin.status fault).isFailure := by
  cases origin with
  | depender => rfl
  | code => exact State.isFailure_ofFault _
  | flow faults => exact State.isFailure_ofFault _

theorem State.ofFault_eq_error {fault : Fault} : State.ofFault fault = .error ↔ fault.isFatal := by
  unfold State.ofFault
  split <;> simp_all

/-- A fatal fault makes its unit an error unless a depender raised it, or a later fault of the flow
is none. -/
theorem Origin.status_eq_error {fault : Fault} (hfatal : fault.isFatal) (origin : Origin) :
    origin.status fault = .error ↔ origin ≠ .depender ∧
      ∀ faults, origin = .flow faults → (faults.getLastD fault).isFatal := by
  cases origin with
  | depender => simp [status]
  | code => simp [status, State.ofFault_eq_error, hfatal]
  | flow faults => simp [status, State.ofFault_eq_error]

/-- Whatever the cause, an error that ends a dispatch is logged as an exception. -/
theorem DispatchError.ofFault_asRoutine (error : DispatchError) :
    State.ofFault error.asRoutine.toFault = .failed := by
  cases error <;> rfl

namespace Shell

section Flow
variable {σ : Type} {step : Core → Signature → Run σ (Core × StepResult)}

def flowEnd (step : Core → Signature → Run σ (Core × StepResult)) (core : Core) :
    Run σ (Core × Option (List Fault × String)) := do
  let selects := core.fidelities.selects
  let inRole := fun role => selects.filter fun signature => signature.role = role
  match ← runUntilFailure step core (inRole .prepare) with
  | (core, some faults) => return (core, some (faults, "prepare step failed"))
  | (core, none) =>
    match ← runUntilSuccess step core [] (inRole .process) with
    | (core, some faults) => return (core, some (faults, "no process signature succeeded"))
    | (core, none) =>
      match ← runUntilFailure step core (inRole .postprocess) with
      | (core, some faults) => return (core, some (faults, "postprocess step failed"))
      | (core, none) => return (core, none)

def flowed : Core × Option (List Fault × String) → Core
  | (core, some (faults, summary)) => failWith core faults summary
  | (core, none) => core

theorem runFlow_eq (core : Core) : runFlow step core = flowed <$> flowEnd step core := by
  unfold runFlow flowEnd
  simp only [map_bind]
  refine congrArg _ (funext fun prepared => ?_)
  obtain ⟨core, _ | faults⟩ := prepared
  · simp only [map_bind]
    refine congrArg _ (funext fun ran => ?_)
    obtain ⟨core, _ | faults⟩ := ran
    · simp only [map_bind]
      refine congrArg _ (funext fun ended => ?_)
      obtain ⟨core, _ | faults⟩ := ended <;> simp only [map_pure] <;> rfl
    · simp only [map_pure]
      rfl
  · simp only [map_pure]
    rfl

theorem failWith_status (core : Core) (faults : List Fault) (summary : String) {fault : Fault}
    (hfault : fault ∈ faults) :
    (failWith core faults summary).status = .ofFault (faults.getLastD fault) := by
  obtain rfl | ⟨rest, last, rfl⟩ := List.eq_nil_or_concat' faults
  · cases hfault
  · rw [failWith_concat, List.getLastD_concat]
    rfl

end Flow

variable {σ : Type} (shell : Shell σ)

structure Resolves (call : Call) (world : World σ) (running : Core) (signature : Signature)
    (operation : Operation) : Prop where
  elsewhere : Work.Travels ⟨running, .task none []⟩
  addressed : signature = requestedSignature call
    (Work.correctedSignature ⟨running, .task none []⟩ shell.config.queueName)
  selectable : signature.isSelectable
  resolved : (shell.collaborators.resolve signature world).value = .ok (.standIn operation)
  depth : call.depth < shell.config.maxDelegationDepth

/-- In the given world, the dispatch of a unit that is ready raises a fault: in a depender, in the
operation of its signature, in a model, in the code that its signature is resolved to, in a flow, or
in the errand that runs in its place. -/
inductive Raises (world : World σ) : Call → Work → Origin → Fault → Prop
  | depender {call : Call} {core : Core} {body : Body Work} {context : Context} {fault : Fault} :
    Depender.realizeAll call.args core.dependers core.context = (context, some fault) →
      Raises world call ⟨core, body⟩ .depender fault
  | operation {call : Call} {core running : Core} {signature : Signature} {operation : Operation}
      {fault : Fault} : Starts call core running → Single running →
    running.processSignature = some signature → signature.target = some operation →
      (operation signature.selector running.context).2 = some fault →
        Raises world call ⟨core, .task none []⟩ .code fault
  | taskModel {call : Call} {core running : Core} {procedures : List Procedure} {fault : Fault} :
    Starts call core running → Single running →
      (Procedure.runAll procedures running.context).2 = some fault →
        Raises world call ⟨core, .task (some procedures) []⟩ .code fault
  | model {call : Call} {core running : Core} {procedures : List Procedure} {fault : Fault} :
    Starts call core running → (Procedure.runAll procedures running.context).2 = some fault →
      Raises world call ⟨core, .model procedures⟩ .code fault
  | standIn {call : Call} {core running : Core} {signature : Signature} {operation : Operation}
      {fault : Fault} : Starts call core running → Single running →
    shell.Resolves call world running signature operation →
      (operation signature.selector ((Context.named running.name).overlay running.context)).2 =
        some fault → Raises world call ⟨core, .task none []⟩ .code fault
  | flow {call : Call} {core running : Core} {model : Option (List Procedure)} {last : Core}
      {faults : List Fault} {summary : String} {fault : Fault} : Starts call core running →
    ¬ Single running →
      (flowEnd (shell.runStep call) running world).value = (last, some (faults, summary)) →
        fault ∈ faults → Raises world call ⟨core, .task model []⟩ (.flow faults) fault
  | errand {call : Call} {core running : Core} {model : Option (List Procedure)} {errand : Errand}
      {errands : List Errand} {origin : Origin} {fault : Fault} : Starts call core running →
    call.depth < shell.config.maxDelegationDepth →
      Raises world call.deeper
        ⟨errand.core.mapContext (·.overlay running.context), .task errand.model errands⟩
        origin fault →
      Raises world call ⟨core, .task model (errand :: errands)⟩ origin fault

theorem executeReady_failed {call : Call} {core running : Core} {body : Body Work}
    (hstarts : Starts call core running) {x : Run σ Attempt}
    (hway : Way shell call running core.status.isResumable body x) {world : World σ} {unit : Work}
    {route : Route} (hended : (x world).value = ⟨unit, .ok route⟩) {status : State}
    (hstatus : unit.core.status = status) (hfailed : status.isFailure) :
    (shell.executeReady call ⟨core, body⟩ world).value.ended.work.core.status = status := by
  subst hstatus
  rw [shell.executeReady_started hstarts, hway.execute_eq, hended]
  exact Core.finish_of_failure hfailed

theorem executeReady_code_failed {call : Call} {core running : Core} {body : Body Work}
    (hstarts : Starts call core running) {code : Run σ Core} {route : Route}
    (hown : OwnCode running body code route) {world : World σ} {fault : Fault}
    (hfault : (code world).value.status = .ofFault fault) :
    (shell.executeReady call ⟨core, body⟩ world).value.ended.work.core.status = .ofFault fault :=
  shell.executeReady_failed hstarts (.own hown) rfl hfault (State.isFailure_ofFault fault)

/-- An execution that an error has stopped leaves its unit failed, not more. -/
theorem status_of_error {attempt : Attempt} {error : DispatchError}
    (h : attempt.result = .error error) : attempt.ended.work.core.status = .failed := by
  unfold Attempt.ended
  rw [h]
  exact DispatchError.ofFault_asRoutine error

theorem withOutcome_fault (core : Core) {outcome : Context × Option Fault} {fault : Fault}
    (hfault : outcome.2 = some fault) : (core.withOutcome outcome).status = .ofFault fault := by
  obtain ⟨context, raised⟩ := outcome
  obtain rfl : raised = some fault := hfault
  rfl

theorem compute_fault (core : Core) {procedures : List Procedure} {fault : Fault}
    (failure : String → Fault → Note)
    (hfault : (Procedure.runAll procedures core.context).2 = some fault) (world : World σ) :
    (compute core procedures failure world).value.status = .ofFault fault := by
  rw [compute_value]
  exact withOutcome_fault core hfault

theorem operated_fault (core : Core) {signature : Signature} {operation : Operation} {fault : Fault}
    (hfault : (operation signature.selector core.context).2 = some fault) :
    (operated core signature operation).status = .ofFault fault := by
  rw [operated_eq]
  exact withOutcome_fault _ hfault

theorem operate_fault (core : Core) {signature : Signature} {operation : Operation} {fault : Fault}
    (hfault : (operation signature.selector core.context).2 = some fault) (world : World σ) :
    (operate core signature operation world).value.status = .ofFault fault := by
  rw [operate_value]
  exact operated_fault core hfault

theorem takeBack_failed (core : Core) {result : Core} (h : result.status.isFailure) :
    (takeBack core result).status = result.status := by
  have hfailed : result.hasFailed = true := h
  unfold takeBack
  simp only [hfailed, if_true]
  rfl

/-- The fault of the code that a task is resolved to becomes its own. -/
theorem send_resolved {call : Call} {world : World σ} {running : Core} {signature : Signature}
    {operation : Operation} (h : shell.Resolves call world running signature operation)
    {fault : Fault} (hfault : (operation signature.selector
      ((Context.named running.name).overlay running.context)).2 = some fault) :
    ∃ unit, (shell.send call ⟨running, .task none []⟩ world).value = ⟨unit, .ok .delegate⟩ ∧
      unit.core.status = .ofFault fault := by
  obtain ⟨id, control, final, hvalue⟩ :=
    shell.send_standIn h.addressed h.selectable h.depth h.resolved
  refine ⟨_, hvalue, ?_⟩
  let own := Signature.object signature.selector signature.type operation
  have hstatus : (operated (standInCore { running with control } id own) own operation).status =
      .ofFault fault := operated_fault _ hfault
  have hfailure : (State.ofFault fault).isFailure := State.isFailure_ofFault fault
  have hfinished := (Core.finish_of_failure (hstatus ▸ hfailure)).trans hstatus
  exact (takeBack_failed _ (hfinished ▸ hfailure)).trans hfinished

theorem givenOver_status (core : Core) (body : Body Work) {attempt : Attempt} {status : State}
    (hstatus : attempt.ended.work.core.status = status) (hfailed : status.isFailure) :
    (givenOver core body attempt.ended).finished.ended.work.core.status = status := by
  obtain ⟨work, result⟩ := attempt
  cases result with
  | ok route =>
    have hwork : work.core.status = status := hstatus
    have htaken := takeBack_failed core (hwork ▸ hfailed)
    exact (Core.finish_of_failure (htaken ▸ hwork ▸ hfailed)).trans (htaken.trans hwork)
  | error error =>
    have hfailed : State.ofFault error.asRoutine.toFault = status := hstatus
    rw [← hfailed, DispatchError.ofFault_asRoutine]
    exact DispatchError.ofFault_asRoutine error.asRoutine

theorem execute_errand {call : Call} (hdepth : call.depth < shell.config.maxDelegationDepth)
    (running : Core) (resuming : Bool) (model : Option (List Procedure)) (errand : Errand)
    (errands : List Errand) (world : World σ) :
    (shell.execute call running resuming (.task model (errand :: errands)) world).value =
      givenOver (served running ⟨errand.core, .task errand.model errands⟩) (.task model [])
        (shell.executeReady call.deeper
          ⟨errand.core.mapContext (·.overlay running.context), .task errand.model errands⟩
          world).value.ended := by
  have hdeeper : call.deeper.depth ≤ shell.config.maxDelegationDepth := hdepth
  rw [Way.execute_eq .errand, Run.map_apply]
  exact congrArg (givenOver _ (.task model [])) (shell.supervise_value hdeeper world)

/-- The status that a fault leaves its unit in, behind the execution. -/
theorem Raises.status {world : World σ} {call : Call} {ready : Work} {origin : Origin}
    {fault : Fault} (h : shell.Raises world call ready origin fault) :
    (shell.executeReady call ready world).value.ended.work.core.status = origin.status fault := by
  -- the induction is along the errands: each hands its status on to the task that it replaces
  induction h with
  | @depender call core body context fault hrealized =>
    rw [executeReady, proceed_value]
    dsimp only
    rw [hrealized]
    exact status_of_error rfl
  | operation hstarts hsingle hsignature htarget hfault =>
    exact shell.executeReady_code_failed hstarts (.operation hsingle hsignature htarget)
      (operate_fault _ hfault world)
  | taskModel hstarts hsingle hfault =>
    exact shell.executeReady_code_failed hstarts (.taskModel hsingle)
      (compute_fault _ _ hfault world)
  | model hstarts hfault =>
    exact shell.executeReady_code_failed hstarts .model (compute_fault _ _ hfault world)
  | standIn hstarts hsingle hresolves hfault =>
    obtain ⟨unit, hsent, hstatus⟩ := shell.send_resolved hresolves hfault
    exact shell.executeReady_failed hstarts (.sent (.task hsingle hresolves.elsewhere)) hsent
      hstatus (State.isFailure_ofFault _)
  | @flow call core running model last faults summary fault hstarts hflow hend hfault =>
    have hended : (runFlow (shell.runStep call) running world).value =
        failWith last faults summary := by
      rw [runFlow_eq, Run.map_apply, hend]
      rfl
    exact shell.executeReady_failed hstarts (.flow hflow)
      (congrArg (fun ended => Attempt.mk ⟨ended, .task model []⟩ (.ok .controlFlow)) hended)
      (failWith_status last faults summary hfault) (State.isFailure_ofFault _)
  | @errand call core running model errand errands origin fault hstarts hdepth _ ih =>
    rw [shell.executeReady_started hstarts, shell.execute_errand hdepth]
    exact givenOver_status _ _ ih (origin.status_isFailure fault)

namespace Dispatches
variable {shell} {call : Call} {work ready : Work} {run : Run σ Dispatched}

/-- The status behind a dispatch whose unit raises a fault. A fatal one makes it an error unless it
comes from a depender, or another fault of the flow comes last that is not fatal. -/
theorem fault_status (h : shell.Dispatches call work (.ok ready) run)
    (hdepth : call.depth ≤ shell.config.maxDelegationDepth) (world : World σ) {origin : Origin}
    {fault : Fault} (hraises : shell.Raises world call ready origin fault) :
    let status := (run world).value.work.core.status
    status = origin.status fault ∧ (fault.isFatal → (status = .error ↔ origin ≠ .depender ∧
      ∀ faults, origin = .flow faults → (faults.getLastD fault).isFatal)) := by
  intro status
  have hvalue : (run world).value = (shell.executeReady call ready world).value.ended :=
    h.value hdepth world
  have hstatus : status = origin.status fault :=
    (congrArg (·.work.core.status) hvalue).trans (Raises.status shell hraises)
  refine ⟨hstatus, fun hfatal => ?_⟩
  rw [hstatus]
  exact origin.status_eq_error hfatal

end Dispatches

def failing (fault : Fault) : Operation := fun _ context => (context, some fault)

def broken : Fault := .error "press broken"

def pressing : Work :=
  ⟨Core.fresh (.ofNat 1) "assemble", .task none
    [⟨(Work.ofSignature (.ofNat 2) "press" (.object "run" "Press" (failing broken))).core, none⟩]⟩

def choosing : Work :=
  let press := Signature.object "run" "Press" (failing broken)
  let hammer := Signature.object "run" "Hammer" (failing (.exception "hammer lost"))
  ⟨(Core.fresh (.ofNat 1) "assemble").mapControl
    ({ · with fidelities := .ofSignatures [press, hammer] }), .task none []⟩

def depending : Work :=
  ⟨{ Core.fresh (.ofNat 1) "assemble" with
      dependers := [⟨"supply", fun context _ => (context, some broken)⟩] }, .task none []⟩

/-- The fatal fault of an errand makes its task an error. -/
theorem fault_status_pressing :
    let ended := (finding none).dispatch ⟨0, none, none, []⟩ pressing ⟨(), .empty 20 1000⟩
    ended.value.work.core.status = .error := by
  have hdispatches : (finding none).Dispatches ⟨0, none, none, []⟩ pressing (.ok _) _ :=
    .root ⟨0, none, none, []⟩ pressing
  have hstatus := hdispatches.fault_status (Nat.zero_le _) ⟨(), .empty 20 1000⟩
    (.errand ⟨_, rfl, rfl⟩ (by decide) (.operation ⟨_, rfl, rfl⟩ (Nat.le_refl 1) rfl rfl rfl))
  exact hstatus.1

/-- A fatal fault of a flow is passed over for a later one that is not, and that of a depender for
the exception that it is logged as. -/
theorem fatal_faults_downgraded :
    (∃ ready faults, prepare [] choosing = .ok ready ∧
      (finding none).Raises ⟨(), .empty 20 1000⟩ ⟨0, none, none, []⟩ ready (.flow faults) broken ∧
      let ended := (finding none).dispatch ⟨0, none, none, []⟩ choosing ⟨(), .empty 20 1000⟩
      ended.value.work.core.status = .failed) ∧
    ∃ ready, prepare [] depending = .ok ready ∧
      (finding none).Raises ⟨(), .empty 20 1000⟩ ⟨0, none, none, []⟩ ready .depender broken ∧
      let ended := (finding none).dispatch ⟨0, none, none, []⟩ depending ⟨(), .empty 20 1000⟩
      ended.value.work.core.status = .failed := by
  have hflow : ¬ 2 ≤ 1 := by decide
  exact ⟨⟨_, _, rfl, .flow ⟨_, rfl, rfl⟩ hflow rfl List.mem_cons_self, rfl⟩,
    ⟨_, rfl, .depender rfl, rfl⟩⟩

end Shell
end ServiceShell
