import ServiceShell.Proofs.Answer
/-!
The status that a dispatch leaves: a unit that is not answered by a provider runs until it fails or
is done, and its control data says the same as its status wherever one of them is written.
-/
namespace ServiceShell

/-- The unit runs or has failed, and its control data says the same. -/
structure Core.InCourse (core : Core) : Prop where
  mirrored : core.control.state = core.status
  status : core.status = .running ∨ core.status.isFailure

structure Core.AtRest (core : Core) : Prop where
  mirrored : core.control.state = core.status
  status : core.status ∈ [State.done, .failed, .error]

theorem Core.AtRest.not_running {core : Core} (h : core.AtRest) : core.status ≠ .running := by
  intro hrunning
  have hstatus := h.status
  rw [hrunning] at hstatus
  simp at hstatus

theorem State.mem_of_isFailure {status : State} (h : status.isFailure) :
    status ∈ [State.done, .failed, .error] := by
  cases status <;> first | exact absurd h Bool.false_ne_true | decide

theorem Core.finish_of_failure {core : Core} (h : core.status.isFailure) :
    core.finish.status = core.status := by
  refine if_neg fun hrunning => ?_
  rw [hrunning] at h
  cases h

/-- A unit that ends has failed if it had before. -/
theorem Core.hasFailed_finish (core : Core) : core.finish.hasFailed = core.hasFailed := by
  by_cases hrunning : core.status = .running
  · simp [Core.finish, Core.hasFailed, Core.setStatus, hrunning, State.isFailure]
  · simp [Core.finish, Core.hasFailed, Core.setStatus, hrunning]

theorem Core.AtRest.fail (core : Core) (fault : Fault) : (core.fail fault).AtRest :=
  ⟨rfl, State.mem_of_isFailure (State.isFailure_ofFault fault)⟩

theorem Shell.failWith_concat (core : Core) (rest : List Fault) (last : Fault) (summary : String) :
    failWith core (rest ++ [last]) summary = (rest.foldl Core.fail core).fail last := by
  unfold failWith
  rw [if_neg (by simp), List.foldl_append]
  rfl

namespace Core.InCourse
variable {core : Core}

theorem running (core : Core) : (core.setStatus .running).InCourse := ⟨rfl, .inl rfl⟩

theorem setStatus (core : Core) {status : State} (h : status.isFailure) :
    (core.setStatus status).InCourse :=
  ⟨rfl, .inr h⟩

theorem fail (core : Core) (fault : Fault) : (core.fail fault).InCourse :=
  ⟨rfl, .inr (State.isFailure_ofFault fault)⟩

theorem withContext (h : core.InCourse) (context : Context) :
    InCourse { core with context } :=
  ⟨h.mirrored, h.status⟩

theorem withOutcome (h : core.InCourse) :
    ∀ outcome : Context × Option Fault, (core.withOutcome outcome).InCourse
  | (context, none) => h.withContext context
  | (_, some fault) => .fail _ fault

theorem noteService (h : core.InCourse) (signature : Signature) :
    (core.mapControl (·.noteService signature)).InCourse :=
  ⟨h.mirrored, h.status⟩

theorem takeBack (h : core.InCourse) (result : Core) : (Shell.takeBack core result).InCourse := by
  unfold Shell.takeBack
  dsimp only
  split
  · exact setStatus _ ‹_›
  · exact ⟨h.mirrored, h.status⟩

theorem failWith (core : Core) (faults : List Fault) (summary : String) :
    (Shell.failWith core faults summary).InCourse := by
  obtain rfl | ⟨rest, last, rfl⟩ := List.eq_nil_or_concat' faults
  · exact fail core _
  · rw [Shell.failWith_concat]
    exact fail _ last

theorem finish (h : core.InCourse) : core.finish.AtRest := by
  obtain hrunning | hfailed := h.status
  · exact ⟨rfl, by simp [Core.finish, hrunning, Core.setStatus]⟩
  · exact ⟨rfl, Core.finish_of_failure hfailed ▸ State.mem_of_isFailure hfailed⟩

end Core.InCourse

theorem Core.finish_status_ne_running (core : Core) : core.finish.status ≠ .running := by
  unfold Core.finish Core.setStatus
  dsimp only
  split <;> simp_all

/-- How an execution leaves a unit of the given id and log: as the call of a provider left it, or in
course. -/
inductive Attempt.Settles (id : Uuid) (log : List Fault) (events : List Event) : Attempt → Prop
  | called {work : Work} : Called id log events work → Settles id log events ⟨work, .ok .remote⟩
  | inCourse {work : Work} {route : Route} : route ≠ .remote → work.core.InCourse →
    Settles id log events ⟨work, .ok route⟩
  | refused {work : Work} {error : DispatchError} : Settles id log events ⟨work, .error error⟩

theorem Attempt.Settles.extend {id : Uuid} {log : List Fault} {events before after : List Event}
    {attempt : Attempt} (h : attempt.Settles id log events) (hbefore : Unanswered before)
    (hafter : Unanswered after) : attempt.Settles id log (before ++ events ++ after) := by
  cases h with
  | called hcalled => exact .called (hcalled.extend hbefore hafter)
  | inCourse hroute hcourse => exact .inCourse hroute hcourse
  | refused => exact .refused

def Run.Settles {σ : Type} (x : Run σ Attempt) (id : Uuid) (log : List Fault) : Prop :=
  x.Ensures fun attempt events => attempt.Settles id log events

namespace Shell
variable {σ : Type} (shell : Shell σ)

theorem Worked.inCourse {core ended : Core} (hworked : Worked core ended) (h : core.InCourse) :
    ended.InCourse := by
  cases hworked with
  | computed outcome => exact h.withOutcome outcome
  | operated signature outcome => exact (h.noteService signature).withOutcome outcome

section Flow
variable {step : Core → Signature → Run σ (Core × StepResult)}

theorem runFlow_inCourse
    (hstep : ∀ core signature, core.InCourse →
      (step core signature).Ensures fun ended _ => ended.1.InCourse)
    {core : Core} (h : core.InCourse) :
    (runFlow step core).Ensures fun core _ => core.InCourse :=
  runFlow_keeps hstep (fun core faults summary _ => .failWith core faults summary) h

end Flow

theorem runStep_inCourse (call : Call) (core : Core) (signature : Signature) (h : core.InCourse) :
    (shell.runStep call core signature).Ensures fun ended _ => ended.1.InCourse :=
  (shell.runStep_context call core signature).mono fun ended _ hended => by
    obtain ⟨context, hended⟩ := hended
    rw [hended]
    exact h.withContext context

theorem runJob_inCourse {core : Core} (h : core.InCourse) (resuming : Bool)
    (runners : List (Runner σ)) :
    (runJob core resuming runners).Ensures fun ended _ => ended.1.InCourse := by
  unfold runJob
  refine .bind (.of_forall fun run _ => ?_)
  dsimp only
  split
  · exact .pure (h.withContext _)
  · exact .bind (.note (.pure (.setStatus _ rfl)))

theorem runBlockChildren_failed (block : String) (resuming : Bool) (runners : List (Runner σ))
    (context : Context) :
    (runBlockChildren block resuming context runners).Ensures fun run _ =>
      ∀ child ∈ run.failed, child.core.hasFailed := by
  induction runners generalizing context with
  | nil => exact .pure (by simp)
  | cons runner rest ih =>
    unfold runBlockChildren
    split
    · exact .bind ((ih context).mono fun later _ h => .pure h)
    · refine .bind (.of_forall fun child _ => ?_)
      dsimp only
      split
      · exact .bind (.note (.pure (by simpa using ‹_›)))
      · exact .bind ((ih _).mono fun later _ h => .pure h)

theorem runBlock_inCourse {core : Core} (h : core.InCourse) (resuming : Bool)
    (runners : List (Runner σ)) :
    (runBlock core resuming runners).Ensures fun ended _ => ended.1.InCourse := by
  unfold runBlock
  refine .bind ((runBlockChildren_failed core.name resuming runners core.context).mono
    fun run _ hfailed => ?_)
  dsimp only
  split
  · exact .pure (h.withContext _)
  · exact .pure (.setStatus _ (hfailed _ (by simp_all)))

theorem givenOver_settles {core : Core} (h : core.InCourse) (standIn : Work) (body : Body Work)
    (ended : Dispatched) (id : Uuid) (log : List Fault) (events : List Event) :
    (givenOver (served core standIn) body ended).Settles id log events := by
  obtain ⟨work, result⟩ := ended
  cases result with
  | error e => exact .refused
  | ok =>
    refine .inCourse (by simp) (Core.InCourse.takeBack ?_ work.core)
    unfold served
    split
    · exact h.noteService _
    · exact h

variable {shell} in
theorem Served.settles {call : Call} {signature : Signature} {unit : Work}
    {handle : Except DispatchError Handle} {attempt : Attempt} {events : List Event}
    (h : Served shell call signature unit handle attempt events) (hcourse : unit.core.InCourse) :
    attempt.Settles unit.core.id unit.core.exceptions events := by
  cases h with
  | called hasked htaken => exact .called (hasked.called htaken)
  | stoodIn => exact givenOver_settles hcourse _ _ _ _ _ _
  | unresolved => exact .refused
  | unlockable => exact .refused
  | unfit => exact .refused

variable {shell} in
/-- Neither the correction nor the resolution of its signature changes the course of a unit. -/
theorem Sent.settles {call : Call} {work : Work} {attempt : Attempt} {events : List Event}
    (h : Sent shell call work attempt events) (hcourse : work.core.InCourse) :
    attempt.Settles work.core.id work.core.exceptions events := by
  cases h with
  | unselectable => exact .inCourse (by simp) (.fail _ _)
  | served hnoted hasked hserved =>
    have hprelude := ((shell.collaborators.resolves_resolve _).of_yields hasked).prelude
    have hsettles := (hserved.settles ⟨hcourse.mirrored, hcourse.status⟩).extend
      (hnoted.prelude.append hprelude).unanswered .nil
    simpa using hsettles

/-- No induction: whatever becomes of what is dispatched inside, the unit only takes it over. -/
theorem execute_settles (call : Call) {core : Core} (h : core.InCourse) (resuming : Bool)
    (body : Body Work) :
    (shell.execute call core resuming body).Settles core.id core.exceptions := by
  have hway := shell.execute_way call core resuming body
  generalize shell.execute call core resuming body = x at hway ⊢
  cases hway with
  | own hown =>
    refine .bind (hown.worked.mono fun _ _ hworked => .pure (.inCourse ?_ (hworked.inCourse h)))
    obtain rfl | rfl := hown.route_eq <;> decide
  | flow =>
    exact .bind ((runFlow_inCourse (shell.runStep_inCourse call) h).mono fun _ _ hended =>
      .pure (.inCourse (by decide) hended))
  | sent => exact (shell.send_sent call _).mono fun _ _ hsent => hsent.settles h
  | errand => exact .map (.of_forall fun ended _ => givenOver_settles h _ _ ended _ _ _)
  | unordered => exact .bind (.noteAll (.pure .refused))
  | job =>
    exact .bind ((runJob_inCourse h resuming _).mono fun _ _ hended =>
      .pure (.inCourse (by simp) hended))
  | block =>
    exact .bind ((runBlock_inCourse h resuming _).mono fun _ _ hended =>
      .pure (.inCourse (by simp) hended))

theorem executeReady_settles (call : Call) (ready : Work) :
    (shell.executeReady call ready).Ensures fun attempt events => ∀ route,
      attempt.result = .ok route → ∃ ran : Work, attempt.work = ran.mapCore Core.finish ∧
        Attempt.Settles ready.core.id ready.core.exceptions events ⟨ran, .ok route⟩ := by
  refine proceed_ensures (fun _ _ _ _ _ => by simp) fun running hstarts => ?_
  obtain ⟨context, -, rfl⟩ := hstarts
  refine (shell.execute_settles call (.running _) _ ready.body).mono
    fun attempt later hsettles earlier hprelude _ => ?_
  obtain ⟨ran, result⟩ := attempt
  cases result with
  | error e => simp [Attempt.finished]
  | ok route =>
    rintro taken htaken
    obtain rfl := Except.ok.inj htaken
    refine ⟨ran, rfl, ?_⟩
    have hextended := hsettles.extend hprelude.unanswered .nil
    rwa [List.append_nil] at hextended

end Shell

/-- The unit is what a provider answered to the unit of the given id; at most the fault of a failed
commit has been noted on it, and a unit that came back running is done. -/
def Answered (id : Uuid) (events : List Event) (unit : Work) : Prop :=
  ∃ sent result, (sent, result) ∈ answers events ∧ sent.core.id = id ∧
    unit = (result.mapCore (·.reportAll (commitFaults events))).mapCore Core.finish

theorem Called.finish {id : Uuid} {log : List Fault} {events : List Event} {work : Work}
    (h : Called id log events work) :
    work.core.finish.AtRest ∨ Answered id events (work.mapCore Core.finish) := by
  cases h with
  | failed => exact .inl (Core.InCourse.fail _ _).finish
  | @answered sent result hid hlog honly =>
    unfold Work.accepted
    split
    · refine .inr ⟨sent, result, ?_, hid, rfl⟩
      rw [honly]
      exact List.mem_singleton_self _
    · exact .inl (Core.InCourse.setStatus _ (Work.acceptedStatus_of_fresh ‹_›)).finish

namespace Shell.Dispatches
variable {σ : Type} {shell : Shell σ} {call : Call} {work ready : Work}
  {entered : Except DispatchError Work} {run : Run σ Dispatched}

theorem events_unanswered (h : shell.Dispatches call work entered run)
    (hdepth : call.depth ≤ shell.config.maxDelegationDepth) (world : World σ) :
    ∃ before after, (run world).events =
      before ++ (shell.executeEntered call entered work world).events ++ after ∧
        Unanswered before ∧ Unanswered after := by
  obtain ⟨later, hlater, hrun⟩ := h.apply world
  obtain ⟨before, after, hevents, hbefore, hafter⟩ :=
    (shell.supervise_frames work.core.id call work (shell.executeEntered call entered) hdepth
      world).events
  refine ⟨.dispatched call.depth work :: before, after ++ later, ?_, ?_, ?_⟩
  · simp [hrun, hevents]
  · have hdispatched : Unanswered [.dispatched call.depth work] := ⟨rfl, rfl⟩
    exact hdispatched.append hbefore.unanswered
  · exact hafter.unanswered.append hlater.unanswered

theorem failed_or_executed (h : shell.Dispatches call work entered run) (world : World σ) :
    (∃ core fault, (run world).value.work.core = Core.fail core fault) ∨
      ∃ ready route, entered = .ok ready ∧ call.depth ≤ shell.config.maxDelegationDepth ∧
        (shell.executeReady call ready world).value = ⟨(run world).value.work, .ok route⟩ := by
  by_cases hdepth : call.depth ≤ shell.config.maxDelegationDepth
  · rw [h.value hdepth world]
    cases entered with
    | error e => exact .inl ⟨work.core, _, rfl⟩
    | ok ready =>
      simp only [executeEntered]
      generalize hattempt : (shell.executeReady call ready world).value = attempt
      obtain ⟨unit, result⟩ := attempt
      cases result with
      | error e => exact .inl ⟨unit.core, _, rfl⟩
      | ok route => exact .inr ⟨ready, route, rfl, hdepth, hattempt⟩
  · obtain ⟨later, -, hrun⟩ := h.apply world
    refine .inl ⟨work.core, (shell.tooDeep work.name).asRoutine.toFault, ?_⟩
    rw [hrun, shell.supervise_refused (Nat.lt_of_not_le hdepth)]
    rfl

theorem executed_settles (h : shell.Dispatches call work (.ok ready) run)
    (hdepth : call.depth ≤ shell.config.maxDelegationDepth) {world : World σ} {route : Route}
    (hexecuted : (shell.executeReady call ready world).value =
      ⟨(run world).value.work, .ok route⟩) :
    ∃ ran : Work, (run world).value.work = ran.mapCore Core.finish ∧
      Attempt.Settles work.core.id ready.core.exceptions (run world).events ⟨ran, .ok route⟩ := by
  obtain ⟨before, after, hevents, hbefore, hafter⟩ := h.events_unanswered hdepth world
  have hresult : (shell.executeReady call ready world).value.result = .ok route := by rw [hexecuted]
  obtain ⟨ran, hran, hsettles⟩ := shell.executeReady_settles call ready world route hresult
  rw [hexecuted] at hran
  rw [hevents, ← h.ready_id rfl]
  exact ⟨ran, hran, hsettles.extend hbefore hafter⟩

/-- A dispatch leaves the unit at rest, or as a provider answered it and done if it was running. -/
theorem rests_or_answered (h : shell.Dispatches call work entered run) (world : World σ) :
    (run world).value.work.core.AtRest ∨
      ∃ ran : Work, (run world).value.work = ran.mapCore Core.finish ∧
        Answered work.core.id (run world).events (run world).value.work := by
  obtain ⟨core, fault, hfailed⟩ | ⟨ready, route, rfl, hdepth, hexecuted⟩ :=
    h.failed_or_executed world
  · rw [hfailed]
    exact .inl (.fail core fault)
  · obtain ⟨ran, hran, hsettles⟩ := h.executed_settles hdepth hexecuted
    cases hsettles with
    | inCourse hroute hcourse =>
      rw [hran]
      exact .inl hcourse.finish
    | called hcalled =>
      obtain hatRest | hanswered := hcalled.finish
      · rw [hran]
        exact .inl hatRest
      · exact .inr ⟨ran, hran, hran ▸ hanswered⟩

theorem not_left_running (h : shell.Dispatches call work entered run)
    (world : World σ) : (run world).value.work.core.status ≠ .running := by
  obtain hatRest | ⟨ran, hran, -⟩ := h.rests_or_answered world
  · exact hatRest.not_running
  · rw [hran]
    exact ran.core.finish_status_ne_running

/-- After every dispatch the status is mirrored and final; only an answer may bring another one. -/
theorem status_settled (h : shell.Dispatches call work entered run) (world : World σ) :
    let unit := (run world).value.work
    unit.core.control.state = unit.core.status ∧ unit.core.status ≠ .running ∧
      (unit.core.status ∈ [State.done, .failed, .error] ∨
        Answered work.core.id (run world).events unit) := by
  intro unit
  have hrunning : unit.core.status ≠ .running := h.not_left_running world
  obtain hatRest | ⟨ran, hran, hanswered⟩ := h.rests_or_answered world
  · exact ⟨hatRest.mirrored, hrunning, .inl hatRest.status⟩
  · refine ⟨?_, hrunning, .inr hanswered⟩
    have hunit : unit = ran.mapCore Core.finish := hran
    rw [hunit]
    rfl

end Shell.Dispatches

namespace Shell

def suspended (work : Work) : Work := work.mapCore (·.setStatus .suspended)

/-- A unit that a provider has suspended stays suspended. -/
theorem status_settled_suspended :
    let ended := (answering depot suspended).dispatch ⟨0, none, none, []⟩ supplied
      ⟨(), .empty 20 1000⟩
    ended.value.work.core.control.state = .suspended ∧
      Answered (.ofNat 2) ended.events ended.value.work := by
  have hdispatches : (answering depot suspended).Dispatches ⟨0, none, none, []⟩ supplied _ _ :=
    .root ⟨0, none, none, []⟩ supplied
  have hsettled := hdispatches.status_settled ⟨(), .empty 20 1000⟩
  refine ⟨hsettled.1, hsettled.2.2.resolve_left ?_⟩
  decide

end Shell
end ServiceShell
