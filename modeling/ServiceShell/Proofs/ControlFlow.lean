import ServiceShell.Proofs.Severity
/-!
A task with several signatures takes them as the steps of a flow: which steps those are, what data
they find, and how the task ends.
-/
namespace ServiceShell

open Json (Value)
open Shell (StepResult)

variable {σ : Type}

def Core.succeeded (core : Core) : Bool := !core.hasFailed && core.exceptions.isEmpty

structure FlowStep (σ : Type) where
  signature : Signature
  context : Context
  world : World σ

def FlowStep.dispatch (shell : Shell σ) (call : Call) (task : Core) (step : FlowStep σ) :
    Outcome σ Work :=
  let drawn := Run.draw shell.collaborators.freshId step.world
  let ended := shell.dispatchStep call.inner drawn.value { task with context := step.context }
    step.signature drawn.world
  let unit := ended.value.work
  let notes := if unit.core.succeeded then [] else [Event.note (.stepFailed unit.core.name task.name)]
  ⟨unit, ended.world, ended.events ++ notes⟩

section Steps
variable (run : FlowStep σ → Outcome σ Work)

def FlowStep.succeeds (step : FlowStep σ) : Bool := (run step).value.core.succeeded

def FlowStep.leaves (step : FlowStep σ) : Context :=
  if step.succeeds run then step.context.overlay (run step).value.core.context else step.context

def gathered (entries : OrderedMap Value) (steps : List (FlowStep σ)) : OrderedMap Value :=
  (steps.filter (FlowStep.succeeds run)).foldl
    (fun entries step => entries.overlay (run step).value.core.context.entries) entries

def worldBehind (world : World σ) (steps : List (FlowStep σ)) : World σ :=
  steps.foldl (fun _ step => (run step).world) world

def faultsOf (steps : List (FlowStep σ)) : List Fault :=
  (steps.filter fun step => !step.succeeds run).flatMap fun step => (run step).value.core.exceptions

def StepsFollow (context : Context) (world : World σ) (steps : List (FlowStep σ)) : Prop :=
  ∀ earlier step rest, steps = earlier ++ step :: rest →
    step.context = { context with entries := gathered run context.entries earlier } ∧
      step.world = worldBehind run world earlier

/-- Steps with the given signatures were taken in order up to the first that stops. -/
def TakenUpTo (stops : FlowStep σ → Prop) (signatures : List Signature)
    (steps : List (FlowStep σ)) : Prop :=
  ∃ left, steps.map FlowStep.signature ++ left = signatures ∧ UpToFirst stops steps left

inductive Taken : Context → World σ → List (FlowStep σ) → Context → World σ → Prop
  | nil {context : Context} {world : World σ} : Taken context world [] context world
  | cons {step : FlowStep σ} {rest : List (FlowStep σ)} {last : Context} {later : World σ} :
    Taken (step.leaves run) (run step).world rest last later →
      Taken step.context step.world (step :: rest) last later

end Steps

section Steps
variable {run : FlowStep σ → Outcome σ Work} {context last : Context} {world later : World σ}
  {steps more : List (FlowStep σ)}

theorem with_gathered_nil (run : FlowStep σ → Outcome σ Work) (context : Context) :
    { context with entries := gathered run context.entries [] } = context := by
  cases context
  rfl

theorem gathered_cons (step : FlowStep σ) (steps : List (FlowStep σ)) :
    gathered run step.context.entries (step :: steps) =
      gathered run (step.leaves run).entries steps := by
  unfold gathered FlowStep.leaves
  rw [List.filter_cons]
  split <;> rfl

theorem with_gathered_leaves (step : FlowStep σ) (entries : OrderedMap Value) :
    { step.leaves run with entries } = { step.context with entries } := by
  unfold FlowStep.leaves
  split <;> rfl

theorem StepsFollow.cons {step : FlowStep σ}
    (h : StepsFollow run (step.leaves run) (run step).world steps) :
    StepsFollow run step.context step.world (step :: steps) := by
  intro earlier other rest hsteps
  -- the step asked for is the first one, or one of the others
  obtain ⟨rfl, hrest⟩ | ⟨later, rfl, hrest⟩ := List.cons_eq_append_iff.mp hsteps
  · obtain ⟨rfl, rfl⟩ := List.cons.inj hrest
    exact ⟨(with_gathered_nil run other.context).symm, rfl⟩
  · obtain ⟨hcontext, hworld⟩ := h later other rest hrest
    rw [with_gathered_leaves] at hcontext
    rw [gathered_cons]
    exact ⟨hcontext, hworld⟩

theorem TakenUpTo.passed {stops : FlowStep σ → Prop} {step : FlowStep σ}
    {signatures : List Signature} (hgoes : ¬ stops step) (h : TakenUpTo stops signatures steps) :
    TakenUpTo stops (step.signature :: signatures) (step :: steps) := by
  obtain ⟨left, rfl, hsteps⟩ := h
  exact ⟨left, rfl, hsteps.passed hgoes⟩

theorem TakenUpTo.stopped {stops : FlowStep σ → Prop} {step : FlowStep σ} (hstops : stops step)
    (left : List Signature) : TakenUpTo stops (step.signature :: left) [step] :=
  ⟨left, rfl, .stopped hstops left⟩

theorem FlowStep.exists_of (signature : Signature) (context : Context) (world : World σ) :
    ∃ step : FlowStep σ, step.signature = signature ∧ step.context = context ∧
      step.world = world :=
  ⟨⟨signature, context, world⟩, rfl, rfl, rfl⟩

theorem faultsOf_cons (step : FlowStep σ) (steps : List (FlowStep σ)) :
    faultsOf run (step :: steps) = if step.succeeds run then faultsOf run steps
      else (run step).value.core.exceptions ++ faultsOf run steps := by
  unfold faultsOf
  rw [List.filter_cons]
  cases step.succeeds run <;> rfl

namespace Taken

theorem append {middle : Context} {between : World σ}
    (h : Taken run context world steps middle between)
    (hmore : Taken run middle between more last later) :
    Taken run context world (steps ++ more) last later := by
  induction h with
  | nil => exact hmore
  | cons _ ih => exact .cons (ih hmore)

theorem follows (h : Taken run context world steps last later) :
    StepsFollow run context world steps ∧
      last = { context with entries := gathered run context.entries steps } ∧
      later = worldBehind run world steps := by
  induction h with
  | @nil context world =>
    exact ⟨by simp [StepsFollow], (with_gathered_nil run context).symm, rfl⟩
  | @cons step rest _ _ _ ih =>
    obtain ⟨hfollows, rfl, rfl⟩ := ih
    rw [with_gathered_leaves, ← gathered_cons]
    exact ⟨hfollows.cons, rfl, rfl⟩

end Taken
end Steps

structure FlowSteps (σ : Type) where
  prepared : List (FlowStep σ)
  processed : List (FlowStep σ)
  postprocessed : List (FlowStep σ)

namespace FlowSteps
variable (run : FlowStep σ → Outcome σ Work) (flow : FlowSteps σ)

def steps : List (FlowStep σ) := flow.prepared ++ flow.processed ++ flow.postprocessed

def isPrepared : Bool := flow.prepared.all (FlowStep.succeeds run)

def isProcessed : Bool := flow.isPrepared run && flow.processed.any (FlowStep.succeeds run)

def succeeds : Bool := flow.isProcessed run && flow.postprocessed.all (FlowStep.succeeds run)

/-- What a flow that does not succeed ends with: the faults of the step or of the alternatives that
failed, and what they stand for. -/
def failure : List Fault × String :=
  if !flow.isPrepared run then (faultsOf run flow.prepared, "prepare step failed")
  else if !flow.isProcessed run then (faultsOf run flow.processed, "no process signature succeeded")
  else (faultsOf run flow.postprocessed, "postprocess step failed")

/-- Of the given signatures, a flow has taken those for preparation up to the first that fails; if
none has, the alternatives of the process up to the first that succeeds; and if one has, those for
postprocessing up to the first that fails. -/
structure Covers (signatures : List Signature) : Prop where
  prepared : TakenUpTo (fun step => step.succeeds run = false)
    (signatures.filter fun signature => signature.role = .prepare) flow.prepared
  processed : if flow.isPrepared run then
      TakenUpTo (fun step => step.succeeds run = true)
        (signatures.filter fun signature => signature.role = .process) flow.processed
    else flow.processed = []
  postprocessed : if flow.isProcessed run then
      TakenUpTo (fun step => step.succeeds run = false)
        (signatures.filter fun signature => signature.role = .postprocess) flow.postprocessed
    else flow.postprocessed = []

end FlowSteps

namespace Shell
variable {step : Core → Signature → Run σ (Core × StepResult)} {task : Core}
  {run : FlowStep σ → Outcome σ Work}

def StepsBy (step : Core → Signature → Run σ (Core × StepResult)) (task : Core)
    (run : FlowStep σ → Outcome σ Work) : Prop :=
  ∀ taken : FlowStep σ, step { task with context := taken.context } taken.signature taken.world =
    ⟨({ task with context := taken.leaves run },
      if taken.succeeds run then none else some (run taken).value.core.exceptions),
      (run taken).world, (run taken).events⟩

theorem runStep_by (shell : Shell σ) (call : Call) (task : Core) :
    StepsBy (shell.runStep call) task (FlowStep.dispatch shell call task) := by
  rintro ⟨signature, context, world⟩
  have hrun : shell.runStep call { task with context } signature =
      Run.draw shell.collaborators.freshId >>= fun id =>
        shell.dispatchStep call.inner id { task with context } signature >>= fun ended =>
          if ended.work.core.hasFailed || !ended.work.core.exceptions.isEmpty then do
            Run.note (.stepFailed ended.work.core.name task.name)
            return ({ task with context }, some ended.work.core.exceptions)
          else return ({ task with context := context.overlay ended.work.core.context }, none) := rfl
  have hevents : (Run.draw shell.collaborators.freshId world).events = [] := rfl
  rw [hrun]
  unfold FlowStep.leaves FlowStep.succeeds FlowStep.dispatch Core.succeeded
  simp only [Run.bind_apply, hevents, List.nil_append]
  generalize shell.dispatchStep _ _ _ _ _ = ended
  obtain ⟨⟨unit, result⟩, later, events⟩ := ended
  dsimp only
  cases unit.core.hasFailed <;> cases unit.core.exceptions.isEmpty <;> rfl

theorem runUntilFailure_taken (h : StepsBy step task run) (signatures : List Signature)
    (context : Context) (world : World σ) :
    ∃ steps last later, Taken run context world steps last later ∧
      TakenUpTo (fun taken => taken.succeeds run = false) signatures steps ∧
      runUntilFailure step { task with context } signatures world =
        ⟨({ task with context := last },
          if steps.all (FlowStep.succeeds run) then none else some (faultsOf run steps)),
          later, steps.flatMap fun taken => (run taken).events⟩ := by
  induction signatures generalizing context world with
  | nil => exact ⟨[], context, world, .nil, ⟨[], rfl, .nil⟩, rfl⟩
  | cons signature rest ih =>
    obtain ⟨taken, rfl, rfl, rfl⟩ := FlowStep.exists_of signature context world
    unfold runUntilFailure
    rw [Run.bind_apply, h taken]
    cases hsucceeds : taken.succeeds run with
    | true =>
      obtain ⟨steps, last, later, hsteps, htaken, hrun⟩ := ih (taken.leaves run) (run taken).world
      refine ⟨taken :: steps, last, later, .cons hsteps, htaken.passed (by simp [hsucceeds]), ?_⟩
      simp only [hsucceeds, if_true, hrun, faultsOf_cons, List.all_cons, Bool.true_and,
        List.flatMap_cons]
    | false =>
      refine ⟨[taken], _, _, .cons .nil, .stopped ?_ rest, ?_⟩
      · exact hsucceeds
      · simp [hsucceeds, faultsOf]

/-- The alternatives of a flow, with the faults of those that were tried before. -/
theorem runUntilSuccess_taken (h : StepsBy step task run) (faults : List Fault)
    (signatures : List Signature) (context : Context) (world : World σ) :
    ∃ steps last later, Taken run context world steps last later ∧
      TakenUpTo (fun taken => taken.succeeds run = true) signatures steps ∧
      runUntilSuccess step { task with context } faults signatures world =
        ⟨({ task with context := last },
          if steps.any (FlowStep.succeeds run) then none else some (faults ++ faultsOf run steps)),
          later, steps.flatMap fun taken => (run taken).events⟩ := by
  induction signatures generalizing context world faults with
  | nil =>
    refine ⟨[], context, world, .nil, ⟨[], rfl, .nil⟩, ?_⟩
    simp [runUntilSuccess, faultsOf]
  | cons signature rest ih =>
    obtain ⟨taken, rfl, rfl, rfl⟩ := FlowStep.exists_of signature context world
    unfold runUntilSuccess
    rw [Run.bind_apply, h taken]
    cases hsucceeds : taken.succeeds run with
    | true =>
      refine ⟨[taken], _, _, .cons .nil, .stopped ?_ rest, ?_⟩
      · exact hsucceeds
      · simp [hsucceeds]
    | false =>
      obtain ⟨steps, last, later, hsteps, htaken, hrun⟩ :=
        ih (faults ++ (run taken).value.core.exceptions) (taken.leaves run) (run taken).world
      refine ⟨taken :: steps, last, later, .cons hsteps, htaken.passed (by simp [hsucceeds]), ?_⟩
      simp only [hsucceeds, hrun, faultsOf_cons, List.any_cons, Bool.false_or, List.flatMap_cons,
        List.append_assoc, Bool.false_eq_true, if_false]

/-- A flow takes its steps one after the other, and ends with what they have left. -/
theorem flowEnd_taken (h : StepsBy step task run) (world : World σ) :
    ∃ (flow : FlowSteps σ) (last : Context) (later : World σ),
      Taken run task.context world flow.steps last later ∧
      flow.Covers run task.fidelities.selects ∧
      flowEnd step task world =
        ⟨({ task with context := last },
          if flow.succeeds run then none else some (flow.failure run)),
          later, flow.steps.flatMap fun taken => (run taken).events⟩ := by
  obtain ⟨prepared, context, middle, hprepared, hprepares, hprepare⟩ := runUntilFailure_taken h
    (task.fidelities.selects.filter fun signature => signature.role = .prepare) task.context world
  obtain ⟨processed, gathered, between, hprocessed, hprocesses, hprocess⟩ :=
    runUntilSuccess_taken h []
      (task.fidelities.selects.filter fun signature => signature.role = .process) context middle
  obtain ⟨postprocessed, last, later, hpostprocessed, hpostprocesses, hpostprocess⟩ :=
    runUntilFailure_taken h
      (task.fidelities.selects.filter fun signature => signature.role = .postprocess) gathered
      between
  -- a flow comes to the second and the third loop only where the one in front of it lets it
  unfold flowEnd
  simp only [Run.bind_apply, hprepare]
  cases hisPrepared : prepared.all (FlowStep.succeeds run) with
  | false =>
    refine ⟨⟨prepared, [], []⟩, context, middle, ?_, ⟨hprepares, ?_, ?_⟩, ?_⟩
    · simpa [FlowSteps.steps] using hprepared
    · simp [FlowSteps.isPrepared, hisPrepared]
    · simp [FlowSteps.isProcessed, FlowSteps.isPrepared, hisPrepared]
    · simp [FlowSteps.succeeds, FlowSteps.isProcessed, FlowSteps.isPrepared, FlowSteps.failure,
        FlowSteps.steps, hisPrepared]
  | true =>
    simp only [if_true, Run.bind_apply, hprocess]
    cases hisProcessed : processed.any (FlowStep.succeeds run) with
    | false =>
      refine ⟨⟨prepared, processed, []⟩, gathered, between, ?_, ⟨hprepares, ?_, ?_⟩, ?_⟩
      · simpa [FlowSteps.steps] using hprepared.append hprocessed
      · simpa [FlowSteps.isPrepared, hisPrepared] using hprocesses
      · simp [FlowSteps.isProcessed, hisProcessed]
      · simp [FlowSteps.succeeds, FlowSteps.isProcessed, FlowSteps.isPrepared, FlowSteps.failure,
          FlowSteps.steps, hisPrepared, hisProcessed]
    | true =>
      refine ⟨⟨prepared, processed, postprocessed⟩, last, later, ?_, ⟨hprepares, ?_, ?_⟩, ?_⟩
      · exact (hprepared.append hprocessed).append hpostprocessed
      · simpa [FlowSteps.isPrepared, hisPrepared] using hprocesses
      · simpa [FlowSteps.isProcessed, FlowSteps.isPrepared, hisPrepared, hisProcessed]
          using hpostprocesses
      · simp only [if_true, Run.bind_apply, hpostprocess]
        cases hsucceeds : postprocessed.all (FlowStep.succeeds run) <;>
          simp [FlowSteps.succeeds, FlowSteps.isProcessed, FlowSteps.isPrepared,
            FlowSteps.failure, FlowSteps.steps, hisPrepared, hisProcessed, hsucceeds]

theorem foldl_fail (core : Core) (faults : List Fault) :
    (faults.foldl Core.fail core).exceptions = core.exceptions ++ faults ∧
      (faults.foldl Core.fail core).context = core.context := by
  induction faults generalizing core with
  | nil => simp
  | cons fault rest ih =>
    obtain ⟨hexceptions, hcontext⟩ := ih (core.fail fault)
    refine ⟨?_, hcontext⟩
    rw [List.foldl_cons, hexceptions, List.append_cons]
    rfl

/-- A flow that fails its task logs the faults, or a summary if there are none. -/
theorem failWith_logs (core : Core) (faults : List Fault) (summary : String) :
    let ended := failWith core faults summary
    ended.hasFailed ∧ ended.context = core.context ∧ ended.exceptions = core.exceptions ++
      if faults.isEmpty then [.exception s!"{summary} in task '{core.name}'"] else faults := by
  obtain rfl | ⟨rest, last, rfl⟩ := List.eq_nil_or_concat' faults
  · exact ⟨rfl, rfl, rfl⟩
  · obtain ⟨hexceptions, hcontext⟩ := foldl_fail core (rest ++ [last])
    have hlogged : failWith core (rest ++ [last]) summary =
        (rest ++ [last]).foldl Core.fail core := if_neg (by simp)
    refine ⟨?_, by rw [hlogged, hcontext], by rw [hlogged, hexceptions, if_neg (by simp)]⟩
    rw [failWith_concat]
    exact State.isFailure_ofFault last

/-- A running task behind a flow: it is done, or has failed and logs why. -/
theorem flowed_finish (core : Core) (hrunning : core.status = .running)
    (failure : Option (List Fault × String)) :
    let ended := (flowed (core, failure)).finish
    ended.context = core.context ∧
      match failure with
      | none => ended.status = .done ∧ ended.exceptions = core.exceptions
      | some (faults, summary) => ended.hasFailed ∧ ended.exceptions = core.exceptions ++
        if faults.isEmpty then [.exception s!"{summary} in task '{core.name}'"] else faults := by
  obtain _ | ⟨faults, summary⟩ := failure
  · refine ⟨rfl, ?_, rfl⟩
    simp [flowed, Core.finish, Core.setStatus, hrunning]
  · obtain ⟨hfailed, hcontext, hexceptions⟩ := failWith_logs core faults summary
    exact ⟨hcontext, (Core.hasFailed_finish _).trans hfailed, hexceptions⟩

variable (shell : Shell σ)

theorem execute_flow (call : Call) {running : Core} (hflow : ¬ Single running) (resuming : Bool)
    (model : Option (List Procedure)) (world : World σ) :
    let ended := flowEnd (shell.runStep call) running world
    shell.execute call running resuming (.task model []) world =
      ⟨⟨⟨flowed ended.value, .task model []⟩, .ok .controlFlow⟩, ended.world, ended.events⟩ := by
  rw [Way.execute_eq (.flow hflow), runFlow_eq, Run.bind_apply, Run.map_apply, Run.pure_apply,
    List.append_nil]

end Shell

/-- Every step is dispatched as a task of its own, with just the data that it is given. -/
theorem FlowStep.dispatch_announced {shell : Shell σ} {call : Call}
    (hdepth : call.depth ≤ shell.config.maxDelegationDepth) (task : Core) (step : FlowStep σ) :
    ∃ id rest, (step.dispatch shell call task).events = .dispatched call.depth
      (Shell.stepUnit id { task with context := step.context } step.signature) :: rest := by
  let drawn := Run.draw shell.collaborators.freshId step.world
  let unit := Shell.stepUnit drawn.value { task with context := step.context } step.signature
  obtain ⟨before, after, hevents, -, -⟩ := (shell.supervise_frames unit.core.id call.inner unit
    (fun unit => Shell.proceed call.inner unit fun core _ =>
      shell.perform call.inner core (.task none [])) hdepth drawn.world).events
  unfold FlowStep.dispatch Shell.dispatchStep
  dsimp only
  rw [hevents]
  exact ⟨drawn.value, _, rfl⟩

/-- A task has taken the steps of its flow. -/
structure RanFlow (run : FlowStep σ → Outcome σ Work) (depth : Nat) (announced : Work)
    (task : Core) (world : World σ) (flow : FlowSteps σ) (outcome : Outcome σ Dispatched) :
    Prop where
  covers : flow.Covers run task.fidelities.selects
  dispatched : ∀ step ∈ flow.steps, ∃ id rest, (run step).events = .dispatched depth
    (Shell.stepUnit id { task with context := step.context } step.signature) :: rest
  follows : StepsFollow run task.context world flow.steps
  frames : outcome.Frames announced.core.id [.dispatched depth announced]
    (worldBehind run world flow.steps) (flow.steps.flatMap fun step => (run step).events)
  context : outcome.value.work.core.context =
    { task.context with entries := gathered run task.context.entries flow.steps }
  done_iff : outcome.value.work.core.status = .done ∧
    outcome.value.work.core.exceptions = task.exceptions ↔ flow.succeeds run
  failed : flow.succeeds run = false → outcome.value.work.core.hasFailed ∧
    outcome.value.work.core.exceptions = task.exceptions ++
      let (faults, summary) := flow.failure run
      if faults.isEmpty then [.exception s!"{summary} in task '{task.name}'"] else faults

/-- A task with several signatures and without errands runs them as a flow. Its steps find the data
of the task, overlaid by what the successful ones in front of them have left; it is done and logs
nothing new just where the flow succeeds, and else has failed and logs the faults of the steps that
stopped it. -/
theorem Shell.Dispatches.runs_flow {shell : Shell σ} {call : Call} {work : Work}
    {core running : Core} {model : Option (List Procedure)} {run : Run σ Dispatched}
    (h : shell.Dispatches call work (.ok ⟨core, .task model []⟩) run)
    (hdepth : call.depth ≤ shell.config.maxDelegationDepth) (hstarts : Starts call core running)
    (hseveral : 2 ≤ core.fidelities.selects.length) (world : World σ) :
    ∃ flow, RanFlow (FlowStep.dispatch shell call running) call.depth work running world flow
      (run world) := by
  have hflow : ¬ Single running := by
    obtain ⟨context, -, rfl⟩ := hstarts
    exact Nat.not_le.mpr hseveral
  obtain ⟨flow, last, later, htaken, hcovers, hend⟩ :=
    flowEnd_taken (shell.runStep_by call running) world
  obtain ⟨hfollows, rfl, rfl⟩ := htaken.follows
  have hexecuted := shell.execute_flow call hflow core.status.isResumable model world
  rw [hend] at hexecuted
  obtain ⟨hframes, hvalue⟩ := h.executed hdepth hstarts world
  rw [hexecuted] at hframes hvalue
  have hrunning : running.status = .running := by
    obtain ⟨context, -, rfl⟩ := hstarts
    rfl
  let ended : Core := { running with context := { running.context with
    entries := gathered (FlowStep.dispatch shell call running) running.context.entries flow.steps } }
  have hcore : (run world).value.work.core = (flowed (ended, _)).finish :=
    congrArg (·.work.core) hvalue
  obtain ⟨hcontext, hended⟩ := flowed_finish ended hrunning
    (if flow.succeeds (FlowStep.dispatch shell call running) then none
      else some (flow.failure (FlowStep.dispatch shell call running)))
  rw [← hcore] at hcontext hended
  refine ⟨flow, hcovers, fun step _ => ?_, hfollows, hframes, hcontext, ?_, fun hfails => ?_⟩
  · exact step.dispatch_announced hdepth running
  · cases hsucceeds : flow.succeeds (FlowStep.dispatch shell call running) with
    | true =>
      rw [hsucceeds] at hended
      exact iff_of_true hended rfl
    | false =>
      rw [hsucceeds] at hended
      refine iff_of_false (fun hdone => ?_) Bool.false_ne_true
      have hfailed : State.isFailure .done := hdone.1 ▸ hended.1
      cases hfailed
  · rw [hfails] at hended
    exact hended

def forging : Work :=
  let writes (path : String) : Operation := fun _ context => (context.put path (.ofInt 1), none)
  let polish := (Signature.object "run" "Cloth" (writes "polished")).withRole .postprocess
  let press := Signature.object "run" "Press" (Shell.failing (.exception "press jammed"))
  let measure := (Signature.object "run" "Gauge" (writes "measured")).withRole .prepare
  let hammer := Signature.object "run" "Hammer" (writes "forged")
  ⟨(Core.fresh (.ofNat 1) "forge").mapControl
    ({ · with fidelities := .ofSignatures [polish, press, measure, hammer] }), .task none []⟩

theorem Shell.Dispatches.runs_flow_forging :
    let ended := (finding none).dispatch ⟨0, none, none, []⟩ forging ⟨(), .empty 20 1000⟩
    let context := ended.value.work.core.context
    (∃ flow running, RanFlow (FlowStep.dispatch (finding none) ⟨0, none, none, []⟩ running) 0
      forging running ⟨(), .empty 20 1000⟩ flow ended) ∧
      [context.int "measured", context.int "forged", context.int "polished"] = [1, 1, 1] ∧
      ended.value.work.core.status = .done ∧ ended.value.work.core.exceptions = [] := by
  have hdispatches : (finding none).Dispatches ⟨0, none, none, []⟩ forging (.ok _) _ :=
    .root ⟨0, none, none, []⟩ forging
  obtain ⟨flow, hran⟩ := hdispatches.runs_flow (Nat.zero_le _) ⟨_, rfl, rfl⟩ (by decide)
    ⟨(), .empty 20 1000⟩
  exact ⟨⟨flow, _, hran⟩, by decide +kernel, by decide +kernel, by decide +kernel⟩

end ServiceShell
