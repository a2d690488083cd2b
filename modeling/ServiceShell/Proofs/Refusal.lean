import ServiceShell.Proofs.Sending
/-!
A dispatch that ends with an error has run nothing: up to the error there were only dependers,
questions to the discovery and pings, and hand-overs to stand-ins that were refused in their turn.
-/
namespace ServiceShell

namespace DispatchError

def isRoutine : DispatchError → Bool
  | routine _ => true
  | _ => false

def MarkedOnce : DispatchError → Prop
  | routine cause => cause.isRoutine = false
  | _ => True

def IsMarked (error : DispatchError) : Prop :=
  ∃ cause, error = routine cause ∧ cause.isRoutine = false

theorem isMarked_asRoutine {error : DispatchError} (h : error.MarkedOnce) :
    error.asRoutine.IsMarked := by
  cases error with
  | routine cause => exact ⟨cause, rfl, h⟩
  | _ => exact ⟨_, rfl, rfl⟩

theorem IsMarked.markedOnce {error : DispatchError} (h : error.IsMarked) : error.MarkedOnce := by
  obtain ⟨cause, rfl, hc⟩ := h
  exact hc

/-- A unit that fails with a marked error logs its text as an exception. -/
theorem IsMarked.fail {error : DispatchError} (h : error.IsMarked) (core : Core) :
    (core.fail error.toFault).exceptions = core.exceptions ++ [.exception error.message] ∧
      (core.fail error.toFault).status = .failed ∧
        (core.fail error.toFault).control.state = .failed := by
  obtain ⟨cause, rfl, -⟩ := h
  exact ⟨rfl, rfl, rfl⟩

end DispatchError

/-- An event in which nothing is executed: it logs, asks the discovery, pings, runs a depender or
reports. For a task, also the dispatch of another task that stands in for it below `depth`. -/
def Event.IsQuiet (kind : Kind) (depth : Nat) : Event → Prop
  | .note _ | .located .. | .found .. | .pinged .. | .realized .. | .recorded _ => True
  | .dispatched level unit => kind = .task ∧ unit.kind = .task ∧ depth < level
  | _ => False

/-- How an execution is refused, on a unit with the logged faults `log`. -/
structure Refusal (kind : Kind) (depth : Nat) (log : List Fault) (work : Work)
    (error : DispatchError) (events : List Event) : Prop where
  quiet : ∀ event ∈ events, event.IsQuiet kind depth
  log : work.core.exceptions = log
  marked : error.MarkedOnce

def Run.Refuses {σ : Type} (x : Run σ Attempt) (kind : Kind) (depth : Nat) (log : List Fault) :
    Prop :=
  x.Ensures fun attempt events => ∀ error, attempt.result = .error error →
    Refusal kind depth log attempt.work error events

structure Refused (kind : Kind) (depth : Nat) (log : List Fault) (unit : Work)
    (core : Core) (error : DispatchError) (events : List Event) : Prop where
  quiet : ∀ event ∈ events, event = .dispatched depth unit ∨ event.IsQuiet kind depth
  log : core.exceptions = log ++ [.exception error.message]
  status : core.status = .failed
  state : core.control.state = .failed
  marked : error.IsMarked

/-- What a refused stand-in did is quiet for the task that it stands in for. -/
theorem Refused.quiet_above {depth : Nat} {log : List Fault} {standIn : Work} {core : Core}
    {error : DispatchError} {events : List Event} (hkind : standIn.kind = .task)
    (h : Refused .task (depth + 1) log standIn core error events) :
    ∀ event ∈ events, event.IsQuiet .task depth := by
  intro event he
  obtain rfl | hq := h.quiet event he
  · exact ⟨rfl, hkind, Nat.lt_succ_self depth⟩
  · cases event with
    | dispatched level unit => exact ⟨rfl, hq.2.1, Nat.lt_of_succ_lt hq.2.2⟩
    | _ => exact hq

theorem Prelude.quiet {events : List Event} (h : Prelude events) (kind : Kind) (depth : Nat) :
    ∀ event ∈ events, event.IsQuiet kind depth := by
  intro event hevent
  have hprelude := h event hevent
  cases event <;> trivial

namespace Shell
variable {σ : Type} (shell : Shell σ)

/-- Dependers leave the log of the unit alone, so a route that is refused is refused after them. -/
theorem proceed_refuses {call : Call} {work : Work} {route : Core → Bool → Run σ Attempt}
    {kind : Kind} {depth : Nat}
    (hroute : ∀ context resuming, let running := Core.setStatus { work.core with context } .running
      (route running resuming).Refuses kind depth running.exceptions) :
    (proceed call work route).Refuses kind depth work.core.exceptions := by
  refine proceed_ensures (fun context fault events hprelude _ error he => ?_)
    fun running hstarts => ?_
  · obtain rfl := Except.error.inj he
    exact ⟨hprelude.quiet kind depth, rfl, rfl⟩
  · obtain ⟨context, -, rfl⟩ := hstarts
    refine (hroute context _).mono fun attempt later h earlier hprelude _ error he => ?_
    obtain ⟨left, result⟩ := attempt
    cases result with
    | ok route => cases he
    | error e =>
      obtain ⟨hquiet, hlog, hmarked⟩ := h error he
      exact ⟨List.forall_mem_append.mpr ⟨hprelude.quiet kind depth, hquiet⟩, hlog, hmarked⟩

theorem supervise_refuses {call : Call} {work : Work} {execute : Work → Run σ Attempt}
    {kind : Kind} {log : List Fault}
    (hguard : shell.config.maxDelegationDepth < call.depth → log = work.core.exceptions)
    (hexecute : (execute work).Refuses kind call.depth log) :
    (shell.supervise call work execute).Ensures fun ended events =>
      ∀ error, ended.result = .error error →
        Refused kind call.depth log work ended.work.core error events := by
  refine shell.supervise_ensures (fun hdeep error he => ?_)
    fun _ => hexecute.mono fun attempt inside h after hcloses error he => ?_
  · obtain rfl := Except.error.inj he
    have hmarked : (shell.tooDeep work.name).asRoutine.IsMarked :=
      DispatchError.isMarked_asRoutine trivial
    obtain ⟨hlog, hstatus, hstate⟩ := hmarked.fail work.core
    exact ⟨by simp [Event.IsQuiet], hguard hdeep ▸ hlog, hstatus, hstate, hmarked⟩
  · cases hcloses with
    | kept => cases he
    | failed => cases he
    | @aborted left e =>
      obtain rfl := Except.error.inj he
      obtain ⟨hquiet, hlog, hm⟩ := h e rfl
      have hmarked := DispatchError.isMarked_asRoutine hm
      obtain ⟨hfailed, hstatus, hstate⟩ := hmarked.fail left.core
      refine ⟨?_, hlog ▸ hfailed, hstatus, hstate, hmarked⟩
      simpa [Event.IsQuiet, or_imp, forall_and] using fun event he => .inr (hquiet event he)

theorem dispatchReady_refuses {call : Call} {unit : Work}
    (hexecute : ∀ context resuming,
      let running := Core.setStatus { unit.core with context } .running
      (shell.execute call running resuming unit.body).Refuses unit.kind call.depth
        running.exceptions) :
    (shell.dispatchReady call unit).Ensures fun ended events => ∀ error,
      ended.result = .error error →
        Refused unit.kind call.depth unit.core.exceptions unit ended.work.core error events :=
  shell.supervise_refuses (fun _ => rfl) (proceed_refuses hexecute)

end Shell

/-- A task that was given over is refused with the unit that was to run in its place. -/
theorem Refused.givenOver {depth : Nat} {log : List Fault} {unit : Work} {ended : Dispatched}
    {events : List Event} (hkind : unit.kind = .task)
    (h : ∀ error, ended.result = .error error →
      Refused .task (depth + 1) log unit ended.work.core error events)
    (core : Core) (body : Body Work) {error : DispatchError}
    (herror : (Shell.givenOver core body ended).result = .error error) :
    Refusal .task depth core.exceptions (Shell.givenOver core body ended).work error events := by
  obtain ⟨work, result⟩ := ended
  cases result with
  | ok => cases herror
  | error e =>
    obtain rfl := Except.error.inj herror
    have hrefused := h e rfl
    exact ⟨hrefused.quiet_above hkind, rfl, hrefused.marked.markedOnce⟩

namespace Shell
variable {σ : Type} {shell : Shell σ}

theorem Served.refuses {call : Call} {signature : Signature} {unit : Work}
    {handle : Except DispatchError Handle} {attempt : Attempt} {inside : List Event}
    (h : Served shell call signature unit handle attempt inside)
    (hunavailable : ∀ error, handle = .error error →
      error = Collaborators.unavailable signature)
    (hstandIn : unit.kind = .task → ∀ id operation,
      let standIn := standInUnit id unit.core signature operation
      (shell.dispatchReady call.deeper standIn).Ensures fun ended events => ∀ error,
        ended.result = .error error →
          Refused .task (call.depth + 1) standIn.core.exceptions standIn ended.work.core error
            events) {error : DispatchError} (herror : attempt.result = .error error) :
    Refusal unit.kind call.depth unit.core.exceptions attempt.work error inside := by
  cases h with
  | unresolved =>
    obtain rfl := Except.error.inj herror
    obtain rfl := hunavailable _ rfl
    exact ⟨by simp, rfl, trivial⟩
  | called => cases herror
  | unlockable =>
    obtain rfl := Except.error.inj herror
    exact ⟨by simp, unit.outgoing_exceptions signature, trivial⟩
  | unfit =>
    obtain rfl := Except.error.inj herror
    exact ⟨by simp, rfl, trivial⟩
  | stoodIn hkind hended =>
    rw [hkind, ← served_exceptions]
    exact Refused.givenOver rfl ((hstandIn hkind _ _).of_yields hended) _ _ herror

theorem Sent.refuses {call : Call} {work : Work} {attempt : Attempt} {events : List Event}
    (h : Sent shell call work attempt events)
    (hstandIn : work.kind = .task → ∀ id core signature operation,
      let standIn := standInUnit id core signature operation
      (shell.dispatchReady call.deeper standIn).Ensures fun ended events => ∀ error,
        ended.result = .error error →
          Refused .task (call.depth + 1) standIn.core.exceptions standIn ended.work.core error
            events) {error : DispatchError} (herror : attempt.result = .error error) :
    Refusal work.kind call.depth work.core.exceptions attempt.work error events := by
  cases h with
  | unselectable => cases herror
  | served hnoted hasked hserved =>
    have hresolves := (shell.collaborators.resolves_resolve _).of_yields hasked
    obtain ⟨hquiet, hlog, hmarked⟩ := hserved.refuses hresolves.unavailable
      (fun hkind id operation => hstandIn hkind id _ _ operation) herror
    refine ⟨List.forall_mem_append.mpr ⟨hnoted.prelude.quiet _ _, ?_⟩, hlog, hmarked⟩
    exact List.forall_mem_append.mpr ⟨hresolves.prelude.quiet _ _, hquiet⟩

variable (shell)

/-- By induction on what is dispatched inside: a composite swallows what happens to its children,
and a task is refused where the unit in its place is. -/
theorem execute_refuses (core : Core) (body : Body Work) (call : Call) (resuming : Bool) :
    (shell.execute call core resuming body).Refuses (Work.mk core body).kind call.depth
      core.exceptions := by
  induction core, body using execution_induction generalizing call resuming with
  | step core body ih =>
    have hinside {unit : Work} (hinvolves : Involves core body unit) (call : Call) :=
      shell.dispatchReady_refuses fun context resuming => ih unit hinvolves context call resuming
    have hway := shell.execute_way call core resuming body
    generalize shell.execute call core resuming body = x at hway ⊢
    cases hway with
    | own => exact .bind (.of_forall fun _ _ => .pure (by simp))
    | flow => exact .bind (.of_forall fun _ _ => .pure (by simp))
    | job => exact .bind (.of_forall fun _ _ => .pure (by simp))
    | block => exact .bind (.of_forall fun _ _ => .pure (by simp))
    | @unordered dependencies children e horder =>
      refine .bind (.noteAll (.pure fun error he => ?_))
      obtain rfl := Except.error.inj he
      refine ⟨by simp [Event.IsQuiet], rfl, ?_⟩
      cases e <;> trivial
    | errand =>
      refine .map ((hinside (.errand _) call.deeper).mono fun ended events h error he => ?_)
      rw [← served_exceptions core]
      exact Refused.givenOver rfl h _ _ he
    | sent hdeparts =>
      rw [← hdeparts.kind core]
      refine (shell.send_sent call _).mono fun attempt events hsent error he => ?_
      exact hsent.refuses (fun hkind id other signature operation =>
        hinside (hdeparts.involves hkind id other signature operation) call.deeper) he

/-- The log that a dispatch of the unit starts with: it is empty where the unit has been reset. -/
def startLog (args : List Argument) (work : Work) : List Fault :=
  match prepare args work with
  | .ok _ =>
    if work.core.control.initializable ∧ work.core.control.state = .initial then []
    else work.core.exceptions
  | .error _ => work.core.exceptions

theorem reset_log (args : List Argument) (work : Work) :
    (work.reset args).core.exceptions =
      if work.core.control.state = .initial then [] else work.core.exceptions := by
  unfold Work.reset
  split
  · rename_i hinitial
    rw [Work.mapUnits_core, Work.resetCore_of_initial hinitial]
  · rfl

theorem resetIf_log (args : List Argument) (work : Work) :
    (if work.core.control.initializable then work.reset args else work).core.exceptions =
      if work.core.control.initializable ∧ work.core.control.state = .initial then []
      else work.core.exceptions := by
  by_cases hinit : work.core.control.initializable = true
  · simp only [hinit, if_true, true_and]
    exact reset_log args work
  · simp [hinit]

theorem prepare_ok {args : List Argument} {work ready : Work} (h : prepare args work = .ok ready) :
    ready.core.exceptions = startLog args work ∧ ready.kind = work.kind := by
  rw [startLog, h]
  obtain ⟨chosen, -, rfl⟩ := exists_readied h
  exact ⟨resetIf_log args _, readied_kind args work chosen⟩

theorem prepare_error {args : List Argument} {work : Work} {error : DispatchError}
    (h : prepare args work = .error error) : error.MarkedOnce := by
  rw [prepare_eq] at h
  cases hselect : selectFidelity args work with
  | ok fidelities =>
    rw [hselect] at h
    cases h
  | error e =>
    rw [hselect] at h
    obtain rfl := Except.error.inj h
    unfold selectFidelity Fidelities.select at hselect
    split at hselect
    · split at hselect
      · cases hselect
      · obtain rfl := Except.error.inj hselect
        trivial
    · cases hselect

theorem dispatch_refuses (call : Call) (work : Work) (hdepth : call.depth = 0) :
    (shell.dispatch call work).Ensures fun ended events => ∀ error, ended.result = .error error →
      ∃ earlier, events = earlier ++ [.flushed] ∧
        Refused work.kind 0 (startLog call.args work) work ended.work.core error earlier := by
  have hexecute : (shell.executePrepared call work).Refuses work.kind call.depth
      (startLog call.args work) := by
    cases hprepare : prepare call.args work with
    | error e =>
      rw [shell.executePrepared_error call hprepare]
      refine .pure fun error he => ?_
      obtain rfl := Except.error.inj he
      exact ⟨by simp, by simp only [startLog, hprepare], prepare_error hprepare⟩
    | ok ready =>
      obtain ⟨hlog, hkind⟩ := prepare_ok hprepare
      rw [shell.executePrepared_ok call hprepare, ← hlog, ← hkind]
      exact proceed_refuses fun context resuming =>
        shell.execute_refuses _ ready.body call resuming
  unfold dispatch
  refine .bind ((shell.supervise_refuses (by omega) hexecute).mono fun ended events h => ?_)
  refine .bind (.emit (.pure fun error he => ⟨events, by simp, ?_⟩))
  rw [← hdepth]
  exact h error he

/-- A dispatch that ends with an error has executed nothing: apart from its own dispatch, the report
and the flush there are only quiet events. The error is marked once, and the unit has failed and
has logged the text of the error. -/
theorem trySubmit_error_executes_nothing (work : Work) (txn : Option Transaction)
    (args : List Argument) (world : World σ) (error : DispatchError)
    (h : (shell.trySubmit work txn args world).value.result = .error error) :
    let outcome := shell.trySubmit work txn args world
    let core := outcome.value.work.core
    (∀ event ∈ outcome.events, event = .dispatched 0 work ∨ event = .flushed ∨
        event.IsQuiet work.kind 0) ∧
      (∃ cause, error = .routine cause ∧ cause.isRoutine = false) ∧
      core.status = .failed ∧ core.control.state = .failed ∧
      core.exceptions = startLog args work ++ [.exception error.message] := by
  obtain ⟨earlier, hevents, hrefused⟩ := shell.dispatch_refuses ⟨0, txn, none, args⟩ work rfl
    world error h
  refine ⟨fun event he => ?_, hrefused.marked, hrefused.status, hrefused.state, hrefused.log⟩
  rw [trySubmit, hevents] at he
  obtain he | he := List.mem_append.mp he
  · obtain rfl | hq := hrefused.quiet event he
    · exact .inl rfl
    · exact .inr (.inr hq)
  · exact .inr (.inl (List.mem_singleton.mp he))

/-- A task that is handed to an errand without a provider: the errand is refused one level deeper,
and the task with it. -/
theorem trySubmit_error_executes_nothing_errand :
    let shell := finding none
    let errand := Work.ofSignature (.ofNat 1) "errand" (.net "add" "Adder")
    let work : Work := ⟨Core.fresh (.ofNat 2) "sum", .task none [⟨errand.core, none⟩]⟩
    let outcome := shell.trySubmit work none [] ⟨(), .empty 20 1000⟩
    let error : DispatchError := .routine (.providerUnavailable "*" "Adder")
    outcome.value.result = .error error ∧
      outcome.value.work.core.exceptions = [.exception error.message] := by
  have herror : ((finding none).trySubmit ⟨Core.fresh (.ofNat 2) "sum",
      .task none [⟨(Work.ofSignature (.ofNat 1) "errand" (.net "add" "Adder")).core, none⟩]⟩
        none [] ⟨(), .empty 20 1000⟩).value.result =
          .error (.routine (.providerUnavailable "*" "Adder")) := rfl
  exact ⟨herror, (trySubmit_error_executes_nothing _ _ none [] _ _ herror).2.2.2.2⟩

end Shell
end ServiceShell
