import ServiceShell.Proofs.Dispatch
import ServiceShell.Proofs.Lookup
/-!
In-process code that stands in for a provider, compared with the same code as the operation of the
task itself. The stand-in works on a copy of the entries of the task that has no scope, so the two
agree on a task unless the code finds something different through the scope.
-/
namespace ServiceShell

open Json (Value)

/-- In-process code that uses its context only through reads and writes of paths. -/
inductive Logic where
  | done
  | fault (fault : Fault)
  | read (path : String) (next : Option Value → Logic)
  | write (path : String) (value : Value) (next : Logic)

namespace Logic

def run : Logic → Context → Context × Option Fault
  | done, context => (context, none)
  | fault f, context => (context, some f)
  | read path next, context => (next (context.get? path)).run context
  | write path value next, context => next.run (context.put path value)

def operation (logic : String → Logic) : Operation :=
  fun selector context => (logic selector).run context

def outcome (logic : Logic) (context : Context) : OrderedMap Value × Option Fault :=
  ((logic.run context).1.entries, (logic.run context).2)

theorem outcome_congr (logic : Logic) {context other : Context}
    (hentries : context.entries = other.entries) (hscope : context.scope = other.scope) :
    logic.outcome context = logic.outcome other := by
  induction logic generalizing context other with
  | done => simp [outcome, run, hentries]
  | fault f => simp [outcome, run, hentries]
  | read path next ih =>
    have hstep := ih (context.get? path) hentries hscope
    rw [outcome, outcome, run, run, Context.get?_congr hentries hscope path] at *
    exact hstep
  | write path value next ih =>
    have hput : (context.put path value).entries = (other.put path value).entries := by
      rw [Context.put, Context.put, hentries]
    exact ih hput hscope

theorem keys_run (logic : Logic) (context : Context) :
    ∃ more, (logic.run context).1.entries.keys = context.entries.keys ++ more := by
  induction logic generalizing context with
  | done => exact ⟨[], (List.append_nil _).symm⟩
  | fault f => exact ⟨[], (List.append_nil _).symm⟩
  | read path next ih => exact ih (context.get? path) context
  | write path value next ih =>
    obtain ⟨more, hmore⟩ := ih (context.put path value)
    have hput : (context.put path value).entries.keys = if path ∈ context.entries.keys
        then context.entries.keys else context.entries.keys ++ [path] := OrderedMap.keys_put ..
    rw [run, hmore, hput]
    split
    · exact ⟨more, rfl⟩
    · exact ⟨[path] ++ more, List.append_assoc ..⟩

theorem overlay_outcome (logic : Logic) (context : Context) :
    context.entries.overlay (logic.outcome context).1 = (logic.outcome context).1 := by
  obtain ⟨more, hmore⟩ := logic.keys_run context
  exact OrderedMap.overlay_eq_of_keys hmore

end Logic

theorem State.isFailure_ofFault (fault : Fault) : (State.ofFault fault).isFailure = true := by
  unfold State.ofFault
  split <;> rfl

theorem State.ofFault_ne_running (fault : Fault) : State.ofFault fault ≠ .running := by
  unfold State.ofFault
  split <;> simp

def Core.shown (core : Core) : OrderedMap Value × State × List Fault :=
  (core.context.entries, core.status, core.exceptions)

theorem Core.finish_shown (core : Core) :
    core.finish.shown = (core.context.entries,
      if core.status = .running then .done else core.status, core.exceptions) :=
  rfl

def shownAfter (log : List Fault) (outcome : OrderedMap Value × Option Fault) :
    OrderedMap Value × State × List Fault :=
  (outcome.1, (outcome.2.map State.ofFault).getD .done, log ++ outcome.2.toList)

/-- A log shows every outcome differently. -/
theorem shownAfter_inj (log : List Fault) {outcome other : OrderedMap Value × Option Fault}
    (h : shownAfter log outcome = shownAfter log other) : outcome = other := by
  obtain ⟨entries, fault⟩ := outcome
  obtain ⟨otherEntries, otherFault⟩ := other
  simp only [shownAfter, Prod.mk.injEq, List.append_cancel_left_eq] at h
  obtain ⟨rfl, -, hfault⟩ := h
  cases fault <;> cases otherFault <;> simp_all

namespace Shell
variable {σ : Type} (shell : Shell σ)

/-- A task that is done by its own operation. -/
theorem operated_shown (core : Core) (signature : Signature) (logic : String → Logic)
    (hrunning : core.status = .running) :
    (operated core signature (Logic.operation logic)).finish.shown =
      shownAfter core.exceptions ((logic signature.selector).outcome core.context) := by
  unfold operated Logic.operation Logic.outcome shownAfter
  obtain ⟨context, fault⟩ := (logic signature.selector).run core.context
  cases fault with
  | none => simp [Core.finish_shown, Core.mapControl, hrunning]
  | some fault =>
    have hstatus := State.ofFault_ne_running fault
    simp [Core.finish_shown, Core.fail, Core.setStatus, Core.report, Core.mapControl, hstatus]

theorem takeBack_shown (core result : Core) :
    (takeBack core result).shown = (core.context.entries.overlay result.context.entries,
      if result.hasFailed then result.status else core.status,
      core.exceptions ++ result.exceptions) := by
  unfold takeBack
  cases hfailed : result.hasFailed <;>
    simp [Core.shown, Core.setStatus, Core.mapContext, Context.overlay]

def served (core : Core) (standIn : Work) : Core :=
  match standIn.core.processSignature with
  | some signature => core.mapControl (·.noteService signature)
  | none => core

def handedBack (core : Core) (ended : Dispatched) : Core × Except DispatchError Unit :=
  match ended.result with
  | .error error => (core, .error error)
  | .ok () => (takeBack core ended.work.core, .ok ())

theorem served_eq (core : Core) (standIn : Work) :
    ∃ control, served core standIn = { core with control } := by
  unfold served
  split <;> exact ⟨_, rfl⟩

theorem served_context (core : Core) (standIn : Work) :
    (served core standIn).context = core.context := by
  obtain ⟨control, hserved⟩ := served_eq core standIn
  rw [hserved]

theorem served_exceptions (core : Core) (standIn : Work) :
    (served core standIn).exceptions = core.exceptions := by
  obtain ⟨control, hserved⟩ := served_eq core standIn
  rw [hserved]

theorem served_status (core : Core) (standIn : Work) :
    (served core standIn).status = core.status := by
  obtain ⟨control, hserved⟩ := served_eq core standIn
  rw [hserved]

/-- Whatever is noted about the service, the stand-in runs over the data of the task. -/
theorem delegateTo_eq (core : Core) (standIn : Work) (dispatch : Work → Run σ Dispatched) :
    delegateTo core standIn dispatch = handedBack (served core standIn) <$>
      dispatch (standIn.mapCore (·.mapContext (·.overlay core.context))) := by
  rw [← served_context core standIn, ← bind_pure_comp]
  unfold delegateTo served handedBack
  cases standIn.core.processSignature <;>
    exact congrArg (dispatch _ >>= ·) (funext fun ended => by cases ended.result <;> rfl)

theorem dispatchOwn_value (call : Call) (core : Core) (hdependers : core.dependers = [])
    (own : Signature) (operation : Operation)
    (hdepth : call.depth ≤ shell.config.maxDelegationDepth) (world : World σ) :
    (shell.dispatchOwn call own operation ⟨core, .task none []⟩ world).value =
      ⟨⟨(operated (core.setStatus .running) own operation).finish, .task none []⟩, .ok ()⟩ := by
  obtain ⟨id, name, context, control, status, exceptions, returnPath, persisters, dependers⟩ := core
  obtain rfl : dependers = [] := hdependers
  rw [dispatchOwn, shell.supervise_value hdepth, proceed_value]
  simp only [Depender.realizeAll, Run.bind_apply, Run.pure_apply, operate_value]
  rfl

def standInCore (core : Core) (id : Uuid) (own : Signature) : Core :=
  ((Work.ofSignature id core.name own).core.mapContext (·.overlay core.context)).setStatus .running

theorem runStandIn_value {call : Call} (core : Core) (signature : Signature)
    (operation : Operation) (hdepth : call.depth < shell.config.maxDelegationDepth)
    (world : World σ) :
    let own := Signature.object signature.selector signature.type operation
    ∃ id control, (shell.runStandIn call core signature operation world).value =
      (takeBack { core with control } (operated (standInCore core id own) own operation).finish,
        .ok ()) := by
  intro own
  let drawn := Run.draw shell.collaborators.freshId world
  let standIn := Work.ofSignature drawn.value core.name own
  have hstandIn : (shell.dispatchOwn call.deeper own operation
      (standIn.mapCore (·.mapContext (·.overlay core.context))) drawn.world).value =
        ⟨⟨(operated (standInCore core drawn.value own) own operation).finish, .task none []⟩,
          .ok ()⟩ :=
    shell.dispatchOwn_value call.deeper _ rfl own operation hdepth drawn.world
  have hvalue : (shell.runStandIn call core signature operation world).value =
      (delegateTo core standIn (shell.dispatchOwn call.deeper own operation) drawn.world).value :=
    rfl
  obtain ⟨control, hserved⟩ := served_eq core standIn
  refine ⟨drawn.value, control, ?_⟩
  rw [hvalue, delegateTo_eq, Run.map_apply, hstandIn, hserved]
  rfl

theorem takeBack_outcome (core result : Core) (outcome : OrderedMap Value × Option Fault)
    (hrunning : core.status = .running) (hresult : result.shown = shownAfter [] outcome)
    (hgrown : core.context.entries.overlay outcome.1 = outcome.1) :
    (takeBack core result).finish.shown = shownAfter core.exceptions outcome := by
  have htaken := takeBack_shown core result
  obtain ⟨entries, fault⟩ := outcome
  simp only [Core.shown, shownAfter, Prod.mk.injEq, List.nil_append] at hresult htaken
  obtain ⟨hentries, hstatus, hlog⟩ := hresult
  obtain ⟨htakenEntries, htakenStatus, htakenLog⟩ := htaken
  rw [Core.finish_shown, htakenEntries, htakenStatus, htakenLog, hentries, hlog, hgrown,
    Core.hasFailed, hstatus, hrunning]
  cases fault with
  | none => rfl
  | some fault =>
    simp [shownAfter, State.isFailure_ofFault, State.ofFault_ne_running]

def requestedSignature (call : Call) (signature : Signature) : Signature :=
  match call.provider with
  | some name => if name.isEmpty then signature else signature.withProvider (.named name)
  | none => signature

theorem requestedSignature_selector (call : Call) (signature : Signature) :
    (requestedSignature call signature).selector = signature.selector := by
  unfold requestedSignature
  split
  · split <;> rfl
  · rfl

theorem requestedSignature_target (call : Call) (signature : Signature) :
    (requestedSignature call signature).target = signature.target := by
  unfold requestedSignature
  split
  · split <;> rfl
  · rfl

theorem withRequestedProvider_eq (call : Call) (signature : Signature) (core : Core)
    (body : Body Work) :
    ∃ control, withRequestedProvider call signature ⟨core, body⟩ =
      (requestedSignature call signature, ⟨{ core with control }, body⟩) := by
  unfold withRequestedProvider requestedSignature
  cases call.provider with
  | none => exact ⟨core.control, rfl⟩
  | some name =>
    dsimp only
    split
    · exact ⟨core.control, rfl⟩
    · exact ⟨_, rfl⟩

theorem processSignature_of_selects {core : Core} {signature : Signature}
    (hselects : core.fidelities.selects = [signature]) (hprocess : signature.role = .process) :
    core.processSignature = some signature := by
  unfold Core.processSignature Fidelities.processSignature
  unfold Fidelities.selects at hselects
  cases hactive : core.fidelities.active with
  | none => simp [hactive] at hselects
  | some fidelity =>
    rw [hactive] at hselects
    simp [Fidelity.processSignature, hselects, Signature.isProcess, hprocess]

theorem correctSignature_apply (core : Core) (body : Body Work) (world : World σ) :
    ∃ control events, shell.correctSignature ⟨core, body⟩ world =
      ⟨(Work.correctedSignature ⟨core, body⟩ shell.config.queueName, ⟨{ core with control }, body⟩),
        world, events⟩ := by
  have hcorrect : ∃ control, Work.correct ⟨core, body⟩ shell.config.queueName =
      ⟨{ core with control }, body⟩ := by
    unfold Work.correct
    split
    · exact ⟨core.control, rfl⟩
    · exact ⟨_, rfl⟩
  obtain ⟨control, hcorrect⟩ := hcorrect
  refine ⟨control, ?_⟩
  unfold correctSignature
  rw [hcorrect]
  dsimp only
  split <;> exact ⟨_, rfl⟩

/-- A task that is resolved to in-process code runs it over its own data alone. -/
theorem send_standIn {call : Call} {core : Core} {signature : Signature} {operation : Operation}
    (haddressed : signature = requestedSignature call
      (Work.correctedSignature ⟨core, .task none []⟩ shell.config.queueName))
    (hselectable : signature.isSelectable) (hdepth : call.depth < shell.config.maxDelegationDepth)
    {world : World σ}
    (hresolve : (shell.collaborators.resolve signature world).value = .ok (.standIn operation)) :
    let own := Signature.object signature.selector signature.type operation
    ∃ id control final, (shell.send call ⟨core, .task none []⟩ world).value =
      ⟨⟨takeBack { core with control := final }
        (operated (standInCore { core with control } id own) own operation).finish,
          .task none []⟩, .ok .delegate⟩ := by
  intro own
  obtain ⟨corrected, events, hcorrect⟩ :=
    shell.correctSignature_apply core (.task none []) world
  obtain ⟨control, hrequest⟩ := withRequestedProvider_eq call
    (Work.correctedSignature ⟨core, .task none []⟩ shell.config.queueName)
    { core with control := corrected } (.task none [])
  rw [← haddressed] at hrequest
  have hselectable : (Work.correctedSignature ⟨core, .task none []⟩
      shell.config.queueName).isSelectable = true := by
    rw [haddressed, Signature.isSelectable, requestedSignature_selector] at hselectable
    exact hselectable
  obtain ⟨id, final, hvalue⟩ := shell.runStandIn_value { core with control } signature operation
    hdepth (shell.collaborators.resolve signature world).world
  refine ⟨id, control, final, ?_⟩
  unfold send
  simp only [Run.bind_apply, hcorrect, hselectable, Bool.not_true, Bool.false_eq_true, if_false,
    hrequest, hresolve, handOver, Run.pure_apply, hvalue]
  rfl

/-- Pushed work for another service than the queueing dispatcher goes there unchanged. -/
theorem correctedSignature_of_push {core : Core} {signature : Signature}
    (hsignature : core.processSignature = some signature)
    (htype : signature.type ≠ Signature.queueingDispatcher)
    (hpush : signature.access.getD core.control.access = .push) (model : Option (List Procedure))
    (errands : List Errand) (queue : String) :
    Work.correctedSignature ⟨core, .task model errands⟩ queue = signature := by
  have hrequested : Work.requestedSignature ⟨core, .task model errands⟩ = signature := by
    rw [Work.requestedSignature, hsignature, Option.getD_some]
  have hkeeps : Work.keepsSignature ⟨core, .task model errands⟩ = false := rfl
  have haccess : Work.effectiveAccess ⟨core, .task model errands⟩ = .push := by
    rw [Work.effectiveAccess, hrequested, hpush]
  simp [Work.correctedSignature, hkeeps, hrequested, haccess, Signature.forAccess, htype]

theorem send_shown (call : Call) (core : Core) {signature : Signature} {logic : String → Logic}
    (hrunning : core.status = .running) (hsignature : core.processSignature = some signature)
    (hselectable : signature.isSelectable) (htype : signature.type ≠ Signature.queueingDispatcher)
    (hpush : signature.access.getD core.control.access = .push)
    (hdepth : call.depth < shell.config.maxDelegationDepth) (world : World σ)
    (hresolve : (shell.collaborators.resolve (requestedSignature call signature) world).value =
      .ok (.standIn (Logic.operation logic))) :
    let attempt := (shell.send call ⟨core, .task none []⟩ world).value
    attempt.result = .ok .delegate ∧ attempt.work.core.finish.shown = shownAfter core.exceptions
      ((logic signature.selector).outcome core.context.clearScope) := by
  have hsame : (requestedSignature call signature).selector = signature.selector :=
    requestedSignature_selector call signature
  obtain ⟨id, control, final, hvalue⟩ := shell.send_standIn
    (by rw [correctedSignature_of_push hsignature htype hpush])
    (by rw [Signature.isSelectable, hsame]; exact hselectable) hdepth hresolve
  rw [hvalue]
  refine ⟨rfl, takeBack_outcome _ _ _ hrunning ?_ ?_⟩
  · rw [operated_shown _ _ _ rfl, hsame]
    refine congrArg (shownAfter []) (Logic.outcome_congr _ ?_ rfl)
    exact OrderedMap.empty_overlay core.context.entries
  · exact Logic.overlay_outcome _ core.context.clearScope

end Shell

/-- Two executions that ended alike, as far as the rest of a tree can tell. -/
structure Attempt.Alike (attempt other : Attempt) : Prop where
  result : attempt.result = other.result
  shown : attempt.work.core.shown = other.work.core.shown

namespace Attempt.Alike
variable {attempt other : Attempt}

theorem finished (h : attempt.Alike other) : attempt.finished.Alike other.finished := by
  obtain ⟨hresult, hshown⟩ := h
  unfold Attempt.finished
  rw [hresult]
  cases hcase : other.result with
  | error e => exact ⟨hresult, hshown⟩
  | ok route =>
    simp only [Core.shown, Prod.mk.injEq] at hshown
    obtain ⟨hentries, hstatus, hlog⟩ := hshown
    refine ⟨rfl, ?_⟩
    simp only [Work.mapCore, Core.finish_shown, hentries, hstatus, hlog]

theorem ended (h : attempt.Alike other) :
    attempt.ended.work.core.shown = other.ended.work.core.shown := by
  obtain ⟨hresult, hshown⟩ := h
  unfold Attempt.ended
  rw [hresult]
  cases other.result with
  | ok route => exact hshown
  | error e =>
    simp only [Core.shown, Prod.mk.injEq] at hshown
    obtain ⟨hentries, hstatus, hlog⟩ := hshown
    simp [Core.shown, Work.mapCore, Core.fail, Core.setStatus, Core.report, hentries, hlog]

end Attempt.Alike

theorem Attempt.finished_ended {attempt : Attempt} {route : Route}
    (h : attempt.result = .ok route) :
    attempt.finished.ended.work.core = attempt.work.core.finish := by
  obtain ⟨work, result⟩ := attempt
  obtain rfl : result = .ok route := h
  rfl

def Signature.withTarget (signature : Signature) (operation : Operation) : Signature :=
  { signature with target := some operation }

def Fidelities.withTarget (fidelities : Fidelities) (operation : Operation) : Fidelities :=
  { fidelities with alternatives := fidelities.alternatives.map fun fidelity =>
      { fidelity with selects := fidelity.selects.map (·.withTarget operation) } }

def Core.withTarget (core : Core) (operation : Operation) : Core :=
  core.mapControl (·.mapFidelities (·.withTarget operation))

def Work.withTarget (work : Work) (operation : Operation) : Work :=
  work.mapCore (·.withTarget operation)

theorem Fidelities.selects_withTarget (fidelities : Fidelities) (operation : Operation) :
    (fidelities.withTarget operation).selects =
      fidelities.selects.map (·.withTarget operation) := by
  have hactive : (fidelities.withTarget operation).active = fidelities.active.map fun fidelity =>
      { fidelity with selects := fidelity.selects.map (·.withTarget operation) } := by
    simp only [active, activeIndex, withTarget, List.length_map, List.getElem?_map]
  rw [selects, selects, hactive]
  cases fidelities.active <;> rfl

theorem Core.selects_withTarget {core : Core} {signature : Signature} (operation : Operation)
    (hselects : core.fidelities.selects = [signature]) :
    (core.withTarget operation).fidelities.selects = [signature.withTarget operation] := by
  have hmap := core.fidelities.selects_withTarget operation
  rw [hselects] at hmap
  exact hmap

/-- Where in a tree of work a unit is dispatched. -/
inductive Position where
  | root (txn : Option Transaction) (provider : Option String) (args : List Argument)
  | child (call : Call) (kind : Kind) (parent : String) (scope : Context)

namespace Position

def call : Position → Call
  | root txn provider args => ⟨0, txn, provider, args⟩
  | child call .. => call

def enter : Position → Work → Except DispatchError Work
  | root _ _ args, work => Shell.prepare args work
  | child _ _ _ scope, work => .ok (work.mapCore (·.mapContext (·.withScope scope)))

variable {σ : Type}

def dispatch (position : Position) (shell : Shell σ) (work : Work) : Run σ Work :=
  match position with
  | root txn provider args => Dispatched.work <$> shell.dispatch ⟨0, txn, provider, args⟩ work
  | child call kind parent scope => (shell.runner call work).runIn kind parent scope

/-- What is seen of a unit is what its execution leaves. -/
theorem dispatch_shown (position : Position) (shell : Shell σ) {work entered : Work}
    (hentered : position.enter work = .ok entered)
    (hdepth : position.call.depth ≤ shell.config.maxDelegationDepth) (world : World σ) :
    (position.dispatch shell work world).value.core.shown =
      (Shell.proceed position.call entered (fun core resuming =>
        shell.execute position.call core resuming entered.body)
          world).value.ended.work.core.shown := by
  cases position with
  | root txn provider args =>
    have hprepare : Shell.prepare args work = .ok entered := hentered
    have hvalue := shell.dispatch_value (Call.mk 0 txn provider args) hdepth hprepare world
    exact congrArg (·.work.core.shown) hvalue
  | child call kind parent scope =>
    obtain rfl := Except.ok.inj hentered
    have hvalue : dispatch (child call kind parent scope) shell work =
        (shell.runner call work).runIn kind parent scope := rfl
    dsimp only [Position.call] at hdepth ⊢
    rw [hvalue, Shell.Runner.runIn_value, shell.runner_dispatch, shell.supervise_value hdepth,
      shell.runner_child]
    rfl

end Position

theorem Fidelities.select_withTarget (fidelities : Fidelities) (operation : Operation)
    (name : String) :
    (fidelities.withTarget operation).select name =
      (fidelities.select name).map (·.withTarget operation) := by
  have hsearch : (fidelities.withTarget operation).alternatives.findIdx? (·.name = name) =
      fidelities.alternatives.findIdx? (·.name = name) := by
    simp only [withTarget, List.findIdx?_map]
    rfl
  unfold select
  rw [hsearch]
  cases fidelities.alternatives.findIdx? (·.name = name) <;> rfl

namespace Shell
variable {σ : Type} (shell : Shell σ)

theorem prepare_withTarget {args : List Argument} {work entered : Work} (operation : Operation)
    (h : prepare args work = .ok entered) :
    prepare args (work.withTarget operation) = .ok (entered.withTarget operation) := by
  have hselect : selectFidelity args (work.withTarget operation) =
      (selectFidelity args work).map (·.withTarget operation) := by
    unfold selectFidelity
    cases Argument.fidelity? args with
    | none => rfl
    | some name => exact Fidelities.select_withTarget _ operation name
  have htarget (unit : Work) : unit.withTarget operation = unit.mapCore
      (Core.restate unit.core.control.access (unit.core.fidelities.withTarget operation)) := rfl
  obtain ⟨chosen, hchosen, rfl⟩ := exists_readied h
  rw [prepare_eq, hselect, hchosen]
  refine congrArg Except.ok ?_
  rw [htarget work, htarget (readied args work chosen), readied_access, readied_fidelities]
  exact readied_restate ..

theorem runTask_target (call : Call) (core : Core) {signature : Signature} {operation : Operation}
    (hselects : core.fidelities.selects = [signature]) (hprocess : signature.role = .process)
    (htarget : signature.target = some operation) (world : World σ) :
    (shell.runTask call core none [] world).value =
      ⟨⟨operated core signature operation, .task none []⟩, .ok .inProcess⟩ := by
  have hsignature := processSignature_of_selects hselects hprocess
  unfold runTask runPlain perform
  simp only [hselects, hsignature, htarget, Run.bind_apply, Run.pure_apply, operate_value]

theorem runTask_own (call : Call) (core : Core) {signature : Signature} (logic : String → Logic)
    (hrunning : core.status = .running) (hselects : core.fidelities.selects = [signature])
    (hprocess : signature.role = .process) (world : World σ) :
    let attempt :=
      (shell.runTask call (core.withTarget (Logic.operation logic)) none [] world).value
    attempt.result = .ok .inProcess ∧ attempt.work.core.finish.shown = shownAfter core.exceptions
      ((logic signature.selector).outcome core.context) := by
  intro attempt
  have hattempt : attempt = _ := shell.runTask_target call (core.withTarget (Logic.operation logic))
    (Core.selects_withTarget (Logic.operation logic) hselects) hprocess rfl world
  rw [hattempt]
  exact ⟨rfl, operated_shown (core.withTarget (Logic.operation logic))
    (signature.withTarget (Logic.operation logic)) logic hrunning⟩

theorem delegateTo_alike (core : Core) (control : Control) (standIn : Work)
    (dispatch : Work → Run σ Dispatched) (world : World σ) :
    let ended := (delegateTo { core with control } standIn dispatch world).value
    let other := (delegateTo core standIn dispatch world).value
    ended.2 = other.2 ∧ ended.1.shown = other.1.shown := by
  obtain ⟨_, hserved⟩ := served_eq { core with control } standIn
  obtain ⟨_, hother⟩ := served_eq core standIn
  simp only [delegateTo_eq, Run.map_apply, hserved, hother]
  rcases (dispatch (standIn.mapCore (·.mapContext (·.overlay core.context))) world).value with
    ⟨result, ended⟩
  cases ended with
  | error e => exact ⟨rfl, rfl⟩
  | ok => exact ⟨rfl, by simp only [handedBack, takeBack_shown]⟩

theorem compute_alike (core : Core) (control : Control) (procedures : List Procedure)
    (failure : String → Fault → Note) (world : World σ) :
    (compute { core with control } procedures failure world).value.shown =
      (compute core procedures failure world).value.shown := by
  rw [compute_value, compute_value]
  cases Procedure.runAll procedures core.context with
  | mk context fault => cases fault <;> rfl

theorem runTask_alike (call : Call) (core : Core) {signature : Signature}
    {model : Option (List Procedure)} {errands : List Errand} (operation : Operation)
    (hselects : core.fidelities.selects = [signature]) (hother : model ≠ none ∨ errands ≠ [])
    (world : World σ) :
    (shell.runTask call (core.withTarget operation) model errands world).value.Alike
      (shell.runTask call core model errands world).value := by
  cases errands with
  | cons errand errands =>
    unfold runTask
    obtain ⟨hresult, hshown⟩ := delegateTo_alike core (core.withTarget operation).control
      ⟨errand.core, .task errand.model errands⟩ (fun standIn =>
        shell.supervise call.deeper standIn fun standIn =>
          proceed call.deeper standIn fun core _ =>
            shell.runTask call.deeper core errand.model errands) world
    exact ⟨congrArg (Except.map fun _ => Route.delegate) hresult, hshown⟩
  | nil =>
    cases model with
    | none => simp at hother
    | some procedures =>
      have htargeted := Core.selects_withTarget operation hselects
      unfold runTask runPlain
      simp only [hselects, htargeted]
      exact ⟨rfl, compute_alike core _ procedures _ world⟩

theorem runTask_net (call : Call) (core : Core) {signature : Signature}
    (hselects : core.fidelities.selects = [signature]) (hprocess : signature.role = .process)
    (hnet : signature.target = none) :
    shell.runTask call core none [] = shell.send call ⟨core, .task none []⟩ := by
  have hsignature := processSignature_of_selects hselects hprocess
  unfold runTask runPlain perform
  simp only [hselects, hsignature, hnet]

end Shell

theorem Position.enter_withTarget (position : Position) {work entered : Work}
    (operation : Operation) (h : position.enter work = .ok entered) :
    position.enter (work.withTarget operation) = .ok (entered.withTarget operation) := by
  cases position with
  | root txn provider args => exact Shell.prepare_withTarget operation h
  | child call kind parent scope =>
    obtain rfl := Except.ok.inj h
    rfl

/-- What is seen of a task, as far as its dependers let it come. -/
theorem Position.dispatch_task_shown {σ : Type} (position : Position) (shell : Shell σ)
    {work : Work} {core : Core} {model : Option (List Procedure)} {errands : List Errand}
    (hentered : position.enter work = .ok ⟨core, .task model errands⟩)
    (hdepth : position.call.depth ≤ shell.config.maxDelegationDepth) (world : World σ) :
    (position.dispatch shell work world).value.core.shown =
      (match Depender.realizeAll position.call.args core.dependers core.context with
        | (context, none) => (shell.runTask position.call
            (Core.setStatus { core with context } .running) model errands world).value.finished
        | (context, some fault) => ⟨⟨{ core with context }, .task model errands⟩,
            .error (DispatchError.fault fault).asRoutine⟩).ended.work.core.shown := by
  rw [position.dispatch_shown shell hentered hdepth world, Shell.proceed_value]
  dsimp only
  unfold Shell.execute
  rfl

/-- In-process code that a signature resolves to does to a task what it does as the operation of
the task, exactly if the scope of the task makes no difference to it. It is not asked at all where a
depender stops the task, and where a model or an errand takes the place of the signature. -/
theorem stand_in_agrees_iff {σ : Type} (shell : Shell σ) (position : Position) (task : Work)
    (logic : String → Logic) {core : Core} {model : Option (List Procedure)}
    {errands : List Errand} {signature : Signature}
    (hentered : position.enter task = .ok ⟨core, .task model errands⟩)
    (hselects : core.fidelities.selects = [signature]) (hprocess : signature.role = .process)
    (hnet : signature.target = none) (hselectable : signature.isSelectable)
    (htype : signature.type ≠ Signature.queueingDispatcher)
    (hpush : signature.access.getD core.control.access = .push)
    (hdepth : position.call.depth < shell.config.maxDelegationDepth) (world : World σ)
    (hresolve : (shell.collaborators.resolve (Shell.requestedSignature position.call signature)
      world).value = .ok (.standIn (Logic.operation logic))) :
    let own := task.withTarget (Logic.operation logic)
    let realized := Depender.realizeAll position.call.args core.dependers core.context
    (position.dispatch shell own world).value.core.shown =
        (position.dispatch shell task world).value.core.shown ↔
      realized.2 ≠ none ∨ model ≠ none ∨ errands ≠ [] ∨
        (logic signature.selector).outcome realized.1 =
          (logic signature.selector).outcome realized.1.clearScope := by
  intro own realized
  have hown := position.enter_withTarget (Logic.operation logic) hentered
  have hshownOwn := position.dispatch_task_shown shell hown (Nat.le_of_lt hdepth) world
  have hshown := position.dispatch_task_shown shell hentered (Nat.le_of_lt hdepth) world
  have hrealized : Depender.realizeAll position.call.args core.dependers core.context = realized :=
    rfl
  have hrealizedOwn : Depender.realizeAll position.call.args
      (core.withTarget (Logic.operation logic)).dependers
      (core.withTarget (Logic.operation logic)).context = realized := rfl
  rw [hrealizedOwn] at hshownOwn
  rw [hrealized] at hshown
  rw [hshownOwn, hshown]
  generalize realized = realized
  obtain ⟨context, fault⟩ := realized
  cases fault with
  | some fault => exact ⟨fun _ => .inl (by simp), fun _ => Attempt.Alike.ended ⟨rfl, rfl⟩⟩
  | none =>
    let running := Core.setStatus { core with context } .running
    -- a model or an errand comes before the signature, whatever its target
    by_cases hother : model ≠ none ∨ errands ≠ []
    · have halike :=
        shell.runTask_alike position.call running (Logic.operation logic) hselects hother world
      refine ⟨fun _ => ?_, fun _ => halike.finished.ended⟩
      exact .inr (hother.elim .inl fun h => .inr (.inl h))
    · obtain ⟨rfl, rfl⟩ : model = none ∧ errands = [] := by simpa using hother
      obtain ⟨hresultOwn, hfinishedOwn⟩ :=
        shell.runTask_own position.call running logic rfl hselects hprocess world
      have hsignature := Shell.processSignature_of_selects hselects hprocess
      obtain ⟨hresult, hfinished⟩ := shell.send_shown position.call running rfl hsignature
        hselectable htype hpush hdepth world hresolve
      rw [← shell.runTask_net position.call running hselects hprocess hnet] at hresult hfinished
      have hleft := (congrArg Core.shown (Attempt.finished_ended hresultOwn)).trans hfinishedOwn
      have hright := (congrArg Core.shown (Attempt.finished_ended hresult)).trans hfinished
      constructor
      · intro hsame
        have hshownAfter := hleft.symm.trans (hsame.trans hright)
        exact .inr (.inr (.inr (shownAfter_inj core.exceptions hshownAfter)))
      · intro hcondition
        have houtcome : (logic signature.selector).outcome context =
            (logic signature.selector).outcome context.clearScope := by simpa using hcondition
        exact hleft.trans ((congrArg (shownAfter core.exceptions) houtcome).trans hright.symm)

def doubler (_selector : String) : Logic :=
  .read "x" fun x => .write "y" (.ofInt (2 * (x.bind Value.asInt?).getD 0)) .done

def doubling : Work := .ofSignature (.ofNat 1) "double" (.net "double" "Calculator")

/-- With a value of its own at `x` the task is doubled alike in both ways. -/
theorem stand_in_agrees_on_own_value :
    let shell := Shell.finding (some (.standIn (Logic.operation doubler)))
    let scope := (Context.named "order").put "x" (.ofInt 4)
    let position := Position.child ⟨0, none, none, []⟩ .job "order" scope
    let task := doubling.mapCore (·.mapContext (·.put "x" (.ofInt 5)))
    (position.dispatch shell (task.withTarget (Logic.operation doubler))
        ⟨(), .empty 20 1000⟩).value.core.shown =
      (position.dispatch shell task ⟨(), .empty 20 1000⟩).value.core.shown := by
  intro shell scope position task
  have hentered : position.enter task =
      .ok ⟨task.core.mapContext (·.withScope scope), .task none []⟩ := rfl
  have hresolve : (shell.collaborators.resolve (Shell.requestedSignature position.call
      (.net "double" "Calculator")) ⟨(), .empty 20 1000⟩).value =
        .ok (.standIn (Logic.operation doubler)) := rfl
  have hdepth : position.call.depth < shell.config.maxDelegationDepth := by decide
  exact (stand_in_agrees_iff shell position task doubler hentered rfl rfl rfl (by decide)
    (by decide) rfl hdepth _ hresolve).mpr (.inr (.inr (.inr rfl)))

def jobAround (task : Work) : Work :=
  ⟨{ Core.fresh (.ofNat 0) "order" with context := (Context.named "order").put "x" (.ofInt 4) },
    .job [] [task]⟩

/-- Without a value of its own at `x` the operation of the task finds the one of the job, and the
stand-in does not. -/
theorem stand_in_misses_scope :
    let shell := Shell.finding (some (.standIn (Logic.operation doubler)))
    let doubled (task : Work) : Int :=
      (shell.trySubmit (jobAround task) none [] ⟨(), .empty 20 1000⟩).value.work.core.context.int "y"
    doubled (doubling.withTarget (Logic.operation doubler)) = 8 ∧ doubled doubling = 0 := by
  decide +kernel

end ServiceShell
