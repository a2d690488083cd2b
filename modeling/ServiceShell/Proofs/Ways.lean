import ServiceShell.Proofs.EveryDispatch
import ServiceShell.Proofs.JobOrder
import ServiceShell.Proofs.Sequence
import ServiceShell.Proofs.Tree
/-!
The ways in which a running unit is executed. The code of an execution is opened here, once: what is
shown of executions elsewhere is shown way by way, and by induction on the units that are dispatched
inside of them.
-/
namespace ServiceShell

namespace Event

def isRemark : Event → Bool
  | note (.refused _) => false
  | note _ => true
  | _ => false

/-- What may happen in front of an execution: a depender is realized or a provider is looked for. -/
def isPrelude : Event → Bool
  | realized .. | located .. | found .. | pinged .. => true
  | event => event.isRemark

def isWork : Event → Bool
  | operated .. | computed .. => true
  | event => event.isRemark

theorem isPrelude_of_isRemark {event : Event} (h : event.isRemark) : event.isPrelude := by
  cases event <;> simp_all [isPrelude, isRemark]

end Event

def Remarks (events : List Event) : Prop := ∀ event ∈ events, event.isRemark

def Prelude (events : List Event) : Prop := ∀ event ∈ events, event.isPrelude

theorem Remarks.prelude {events : List Event} (h : Remarks events) : Prelude events :=
  fun event hevent => Event.isPrelude_of_isRemark (h event hevent)

theorem Prelude.append {events later : List Event} (h : Prelude events) (hlater : Prelude later) :
    Prelude (events ++ later) :=
  List.forall_mem_append.mpr ⟨h, hlater⟩

namespace Work

/-- What the persisters of a unit and its descendants leave: a value in their slot, or a note. -/
def keeping (work : Work) : List Event :=
  work.units.flatMap fun unit => unit.core.persisters.map fun persister =>
    match unit.core.context.get? persister.source with
    | some value => .stored persister.slot value
    | none => .note (.nothingToPersist persister.source unit.name)

theorem mem_keeping {work : Work} {event : Event} (h : event ∈ work.keeping) :
    (∃ slot value, event = .stored slot value) ∨ event.isRemark := by
  obtain ⟨unit, -, hunit⟩ := List.mem_flatMap.mp h
  obtain ⟨persister, -, rfl⟩ := List.mem_map.mp hunit
  cases unit.core.context.get? persister.source with
  | some value => exact .inl ⟨_, value, rfl⟩
  | none => exact .inr rfl

def Travels (work : Work) : Prop :=
  ∀ signature, work.core.processSignature = some signature → signature.target = none

end Work

namespace Job.OrderError

def notes (job : String) : OrderError → List Note
  | invalid issues => summary job issues
  | cyclic _ => []

theorem notes_remarks (error : OrderError) (job : String) :
    ∀ n ∈ error.notes job, (Event.note n).isRemark := by
  cases error with
  | cyclic names => simp [notes]
  | invalid issues =>
    simp only [notes, summary]
    split
    · simp [Event.isRemark]
    · exact List.forall_mem_map.mpr fun _ _ => rfl

end Job.OrderError

/-- What a dispatch leaves behind an execution: the values that it stores, unless the unit has
failed, and the report on the unit. -/
inductive Closes : Attempt → List Event → Prop
  | kept {work : Work} {route : Route} (now : Nat) : work.core.hasFailed = false →
    Closes ⟨work, .ok route⟩
      (work.keeping ++ [.recorded (.ofCore now work.core work.kind route)])
  | failed {work : Work} {route : Route} (now : Nat) : work.core.hasFailed →
    Closes ⟨work, .ok route⟩ [.recorded (.ofCore now work.core work.kind route)]
  | aborted {work : Work} {error : DispatchError} (now : Nat) :
    Closes ⟨work, .error error⟩ [.note (.dispatchFailed work.name error.asRoutine),
      .recorded (.ofCore now (work.core.fail error.asRoutine.toFault) work.kind .aborted)]

theorem Closes.framing {attempt : Attempt} {events : List Event} (h : Closes attempt events)
    (owner : Uuid) : Framing owner events := by
  cases h with
  | kept => exact .append (Shell.persist_framing (σ := Unit) owner _ ⟨(), .empty 0 0⟩) (.recorded _)
  | failed => exact .recorded _
  | aborted => exact .append (.notes [_]) (.recorded _)

namespace Shell
variable {σ : Type} (shell : Shell σ)

theorem persist_apply (work : Work) (world : World σ) :
    persist work world = ⟨(), world, work.keeping⟩ := rfl

section Supervision
variable {call : Call} {work : Work} {execute : Work → Run σ Attempt}

theorem supervise_refused (hdepth : shell.config.maxDelegationDepth < call.depth)
    (world : World σ) :
    let error := (shell.tooDeep work.name).asRoutine
    shell.supervise call work execute world =
      ⟨⟨work.mapCore (·.fail error.toFault), .error error⟩, world, [.note (.refused error)]⟩ := by
  unfold supervise
  rw [if_pos hdepth]
  rfl

/-- A dispatch that is let pass announces its unit, executes it and closes. -/
theorem supervise_apply (hdepth : call.depth ≤ shell.config.maxDelegationDepth) (world : World σ) :
    let attempt := execute work world
    ∃ after, Closes attempt.value after ∧ shell.supervise call work execute world =
      ⟨attempt.value.ended, attempt.world, .dispatched call.depth work ::
        .note (.dispatching work.kind work.name) :: (attempt.events ++ after)⟩ := by
  unfold supervise
  rw [if_neg (Nat.not_lt.mpr hdepth)]
  simp only [Run.bind_apply, Run.emit_apply, Run.note_apply]
  generalize execute work world = attempt
  obtain ⟨⟨unit, result⟩, later, events⟩ := attempt
  cases result with
  | error e =>
    refine ⟨_, .aborted (shell.collaborators.now later.env), ?_⟩
    simp [record, Attempt.ended, Work.mapCore, Work.kind]
  | ok route =>
    cases hfailed : unit.core.hasFailed with
    | true =>
      refine ⟨_, .failed (shell.collaborators.now later.env) hfailed, ?_⟩
      simp [record, Attempt.ended]
    | false =>
      refine ⟨_, .kept (shell.collaborators.now later.env) hfailed, ?_⟩
      simp [record, Attempt.ended, persist_apply]

/-- So it is shown of a dispatch, what holds where it is refused for its depth, and what passes to
it from the execution and what closes that. -/
theorem supervise_ensures {post : Dispatched → List Event → Prop}
    (hrefused : shell.config.maxDelegationDepth < call.depth →
      let error := (shell.tooDeep work.name).asRoutine
      post ⟨work.mapCore (·.fail error.toFault), .error error⟩ [.note (.refused error)])
    (hexecute : call.depth ≤ shell.config.maxDelegationDepth →
      (execute work).Ensures fun attempt inside => ∀ after, Closes attempt after →
        post attempt.ended (.dispatched call.depth work ::
          .note (.dispatching work.kind work.name) :: (inside ++ after))) :
    (shell.supervise call work execute).Ensures post := by
  intro world
  by_cases hdepth : call.depth ≤ shell.config.maxDelegationDepth
  · obtain ⟨after, hcloses, hrun⟩ := shell.supervise_apply hdepth world
    rw [hrun]
    exact hexecute hdepth world after hcloses
  · rw [shell.supervise_refused (Nat.lt_of_not_le hdepth)]
    exact hrefused (Nat.lt_of_not_le hdepth)

end Supervision

theorem realize_prelude (args : List Argument) (dependers : List Depender) (core : Core) :
    (realize (σ := σ) args dependers core).Only (·.isPrelude) := by
  induction dependers generalizing core with
  | nil => exact .pure _
  | cons depender rest ih =>
    unfold realize
    refine .bind (.emit rfl) fun _ => ?_
    obtain ⟨context, fault⟩ := depender.realize core.context args
    cases fault with
    | none => exact ih { core with context }
    | some fault => exact .bind (.note rfl) fun _ => .pure _

/-- A unit is stopped by a depender, or starts and is executed. -/
theorem proceed_ensures {call : Call} {work : Work} {route : Core → Bool → Run σ Attempt}
    {post : Attempt → List Event → Prop}
    (hstopped : ∀ context fault events, Prelude events → Framing work.core.id events →
      post ⟨{ work with core := { work.core with context } },
        .error (DispatchError.fault fault).asRoutine⟩ events)
    (hroute : ∀ running, Starts call work.core running →
      (route running work.core.status.isResumable).Ensures fun attempt later =>
        ∀ earlier, Prelude earlier → Framing work.core.id earlier →
          post attempt.finished (earlier ++ later)) :
    (proceed call work route).Ensures post := by
  unfold proceed
  refine .bind fun world => ?_
  have hprelude := realize_prelude call.args work.core.dependers work.core world
  have hframing := realize_framing call.args work.core.dependers work.core world
  obtain ⟨hvalue, -⟩ := realize_apply call.args work.core.dependers work.core world
  rw [hvalue]
  generalize (realize call.args work.core.dependers work.core world).events = earlier
    at hprelude hframing ⊢
  rcases hall : Depender.realizeAll call.args work.core.dependers work.core.context with
    ⟨context, _ | fault⟩
  · refine .bind ((hroute _ ⟨context, hall, rfl⟩).mono fun attempt later hpost => ?_)
    have hpost := hpost earlier hprelude hframing
    obtain ⟨left, result⟩ := attempt
    cases result with
    | error e => exact .pure (by rw [List.append_nil]; exact hpost)
    | ok route => exact .pure (by rw [List.append_nil]; exact hpost)
  · refine .pure ?_
    rw [List.append_nil]
    exact hstopped context fault earlier hprelude hframing

def dispatchReady (call : Call) (unit : Work) : Run σ Dispatched :=
  shell.supervise call unit (shell.executeEntered call (.ok unit))

theorem runner_dispatchReady (call : Call) (child : Work) (core : Core) :
    (shell.runner call child).dispatch core = shell.dispatchReady call { child with core } :=
  shell.runner_dispatch call child core

theorem always_runners {call : Call} {children : List Work} {P : Run σ Dispatched → Prop}
    (h : ∀ child ∈ children, ∀ scope,
      P (shell.dispatchReady call (child.mapCore (·.mapContext (·.withScope scope))))) :
    ∀ runner ∈ children.map (shell.runner call), runner.Always P := by
  refine List.forall_mem_map.mpr fun child hchild scope => ?_
  rw [runner_child, runner_dispatchReady]
  exact h child hchild scope

def givenOver (core : Core) (body : Body Work) : Dispatched → Attempt
  | ⟨result, .ok ()⟩ => ⟨⟨takeBack core result.core, body⟩, .ok .delegate⟩
  | ⟨_, .error error⟩ => ⟨⟨core, body⟩, .error error⟩

theorem givenOver_eq (core : Core) (body : Body Work) (ended : Dispatched) :
    givenOver core body ended = ⟨⟨(handedBack core ended).1, body⟩,
      (handedBack core ended).2.map fun _ => .delegate⟩ := by
  obtain ⟨work, result⟩ := ended
  cases result <;> rfl

theorem givenOver_ok {core : Core} {body : Body Work} {ended : Dispatched} {route : Route}
    (h : (givenOver core body ended).result = .ok route) : route = .delegate := by
  obtain ⟨work, result⟩ := ended
  cases result with
  | error e => cases h
  | ok => exact (Except.ok.inj h).symm

/-- The code of a unit that is executed in this process, and the route that this is. -/
inductive OwnCode (core : Core) : Body Work → Run σ Core → Route → Prop
  | model {procedures : List Procedure} :
    OwnCode core (.model procedures) (compute core procedures .modelFailed) .model
  | taskModel {procedures : List Procedure} : Single core →
    OwnCode core (.task (some procedures) []) (compute core procedures .taskModelFailed) .model
  | operation {signature : Signature} {operation : Operation} : Single core →
    core.processSignature = some signature → signature.target = some operation →
      OwnCode core (.task none []) (operate core signature operation) .inProcess

inductive Worked (core : Core) : Core → Prop
  | computed (outcome : Context × Option Fault) : Worked core (core.withOutcome outcome)
  | operated (signature : Signature) (outcome : Context × Option Fault) :
    Worked core ((core.mapControl (·.noteService signature)).withOutcome outcome)

theorem runCode_works {event : Event} (hevent : event.isWork) {failure : Fault → Note}
    (hfailure : ∀ fault, (Event.note (failure fault)).isWork) (core : Core)
    (outcome : Context × Option Fault) :
    (runCode (σ := σ) event failure core outcome).Only (·.isWork) :=
  .bind (.emit hevent) fun _ => .bind (.noteAll (List.forall_mem_map.mpr fun fault _ =>
    hfailure fault)) fun _ => .pure _

namespace OwnCode
variable {core : Core} {body : Body Work} {code : Run σ Core} {route : Route}

theorem works (h : OwnCode core body code route) : code.Only (·.isWork) := by
  cases h with
  | model | taskModel =>
    rw [compute_eq]
    exact runCode_works rfl (fun _ => rfl) _ _
  | operation =>
    rw [operate_eq]
    exact runCode_works rfl (fun _ => rfl) _ _

theorem worked (h : OwnCode core body code route) :
    code.Ensures fun ended _ => Worked core ended := by
  intro world
  cases h with
  | model | taskModel =>
    rw [compute_value]
    exact .computed _
  | operation =>
    rw [operate_value, operated_eq]
    exact .operated _ _

theorem route_eq (h : OwnCode core body code route) : route = .model ∨ route = .inProcess := by
  cases h <;> simp

theorem childless (h : OwnCode core body code route) (other : Core) :
    Work.children ⟨other, body⟩ = [] := by
  cases h <;> rfl

end OwnCode

/-- The body that a unit is sent with, if it is executed elsewhere. -/
inductive Departs (core : Core) : Body Work → Body Work → Prop
  | task : Single core → Work.Travels ⟨core, .task none []⟩ →
    Departs core (.task none []) (.task none [])
  | job {dependencies : List Dependency} {children : List Work} {order : List Nat} :
    Job.order children dependencies = .ok order → runsHere core = false →
      Departs core (.job dependencies children)
        (.job dependencies (Job.arrange children order))
  | block {declared : Context} {children : List Work} : runsHere core = false →
    Departs core (.block declared children) (.block declared children)

/-- The ways of executing a running unit, each with the computation that it comes to. -/
inductive Way (shell : Shell σ) (call : Call) (core : Core) (resuming : Bool) :
    Body Work → Run σ Attempt → Prop
  | own {body : Body Work} {code : Run σ Core} {route : Route} : OwnCode core body code route →
    Way shell call core resuming body (do return ⟨⟨← code, body⟩, .ok route⟩)
  | flow {model : Option (List Procedure)} : ¬ Single core →
    Way shell call core resuming (.task model []) (do
      return ⟨⟨← runFlow (shell.runStep call) core, .task model []⟩, .ok .controlFlow⟩)
  | sent {body sent : Body Work} : Departs core body sent →
    Way shell call core resuming body (shell.send call ⟨core, sent⟩)
  | errand {model : Option (List Procedure)} {errand : Errand} {errands : List Errand} :
    Way shell call core resuming (.task model (errand :: errands))
      (givenOver (served core ⟨errand.core, .task errand.model errands⟩) (.task model []) <$>
        shell.dispatchReady call.deeper
          ⟨errand.core.mapContext (·.overlay core.context), .task errand.model errands⟩)
  | unordered {dependencies : List Dependency} {children : List Work}
      {error : Job.OrderError} :
    Job.order children dependencies = .error error →
      Way shell call core resuming (.job dependencies children) (do
        Run.noteAll (error.notes core.name)
        return ⟨⟨core, .job dependencies children⟩, .error (error.toDispatchError core.name)⟩)
  | job {dependencies : List Dependency} {children : List Work} {order : List Nat} :
    Job.order children dependencies = .ok order → runsHere core = true →
      Way shell call core resuming (.job dependencies children) (do
        let (core, children) ← runJob core resuming
          ((Job.arrange children order).map (shell.runner call.inner))
        return ⟨⟨core, .job dependencies children⟩, .ok .inProcess⟩)
  | block {declared : Context} {children : List Work} : runsHere core = true →
    Way shell call core resuming (.block declared children) (do
      let (core, children) ← runBlock core resuming (children.map (shell.runner call.inner))
      return ⟨⟨core, .block declared children⟩, .ok .inProcess⟩)

namespace Departs
variable {core : Core} {body sent : Body Work}

theorem travels (h : Departs core body sent) : Work.Travels ⟨core, sent⟩ := by
  have hgoes (hhere : runsHere core = false) : Work.Travels ⟨core, sent⟩ := by
    intro signature hsignature
    unfold runsHere at hhere
    rw [show core.processSignature = some signature from hsignature] at hhere
    simpa [Signature.isLocal] using hhere
  cases h with
  | task _ htravels => exact htravels
  | job _ hhere => exact hgoes hhere
  | block hhere => exact hgoes hhere

theorem kind (h : Departs core body sent) (other : Core) :
    Work.kind ⟨other, sent⟩ = Work.kind ⟨core, body⟩ := by
  cases h <;> rfl

theorem children (h : Departs core body sent) {child : Work}
    (hchild : child ∈ Work.children ⟨core, sent⟩) : child ∈ Work.children ⟨core, body⟩ := by
  cases h with
  | job horder => exact Job.mem_of_mem_arrange hchild
  | _ => exact hchild

end Departs

theorem perform_elsewhere (call : Call) {core : Core} {body : Body Work}
    (h : Work.Travels ⟨core, body⟩) :
    shell.perform call core body = shell.send call ⟨core, body⟩ := by
  unfold perform
  cases hsignature : core.processSignature with
  | none => rfl
  | some signature =>
    dsimp only
    rw [h signature hsignature]

theorem runTask_errand (call : Call) (core : Core) (model : Option (List Procedure))
    (errand : Errand) (errands : List Errand) :
    shell.runTask call core model (errand :: errands) =
      givenOver (served core ⟨errand.core, .task errand.model errands⟩) (.task model []) <$>
        shell.dispatchReady call.deeper
          ⟨errand.core.mapContext (·.overlay core.context), .task errand.model errands⟩ := by
  unfold runTask
  rw [delegateTo_eq, ← bind_pure_comp, ← bind_pure_comp, bind_assoc]
  refine Eq.trans ?_ (congrArg (· >>= _) (shell.dispatchErrand_eq call.deeper _ _ errands))
  refine congrArg (_ >>= ·) (funext fun ended => ?_)
  rw [givenOver_eq]
  rfl

variable {shell} in
/-- A way is how the unit is executed. -/
theorem Way.execute_eq {call : Call} {core : Core} {resuming : Bool} {body : Body Work}
    {x : Run σ Attempt} (h : Way shell call core resuming body x) :
    shell.execute call core resuming body = x := by
  cases h with
  | own hown =>
    cases hown with
    | model =>
      unfold execute
      rfl
    | taskModel hsingle =>
      unfold execute runTask
      exact shell.runPlain_model call hsingle _
    | operation hsingle hsignature htarget =>
      rw [shell.execute_single call resuming hsingle]
      exact shell.perform_target call _ hsignature htarget
  | flow hflow =>
    unfold execute runTask
    exact shell.runPlain_flow call hflow _
  | sent hdeparts =>
    cases hdeparts with
    | task hsingle htravels =>
      rw [shell.execute_single call resuming hsingle]
      exact shell.perform_elsewhere call htravels
    | job horder hhere =>
      unfold execute
      simp only [horder, hhere]
      rfl
    | block hhere =>
      unfold execute
      simp only [hhere]
      rfl
  | errand =>
    unfold execute
    exact shell.runTask_errand call core _ _ _
  | @unordered dependencies children error horder =>
    unfold execute
    rw [horder]
    cases error <;> rfl
  | job horder hhere =>
    unfold execute
    simp only [horder, hhere, if_true, runners_eq_map, Job.arrange_map]
  | block hhere =>
    unfold execute
    simp only [hhere, if_true, runners_eq_map]

/-- Every unit is executed in one of the ways. -/
theorem execute_way (call : Call) (core : Core) (resuming : Bool) (body : Body Work) :
    Way shell call core resuming body (shell.execute call core resuming body) := by
  suffices h : ∃ x, Way shell call core resuming body x by
    obtain ⟨x, h⟩ := h
    rw [h.execute_eq]
    exact h
  have hhere : runsHere core = true ∨ runsHere core = false := by cases runsHere core <;> simp
  cases body with
  | model procedures => exact ⟨_, .own .model⟩
  | task model errands =>
    cases errands with
    | cons errand errands => exact ⟨_, .errand⟩
    | nil =>
      by_cases hsingle : Single core
      · cases model with
        | some procedures => exact ⟨_, .own (.taskModel hsingle)⟩
        | none =>
          by_cases htravels : Work.Travels ⟨core, .task none []⟩
          · exact ⟨_, .sent (.task hsingle htravels)⟩
          · obtain ⟨signature, hsignature, htarget⟩ : ∃ signature,
                core.processSignature = some signature ∧ signature.target ≠ none := by
              simpa [Work.Travels] using htravels
            obtain ⟨operation, htarget⟩ := Option.ne_none_iff_exists'.mp htarget
            exact ⟨_, .own (.operation hsingle hsignature htarget)⟩
      · exact ⟨_, .flow hsingle⟩
  | job dependencies children =>
    cases horder : Job.order children dependencies with
    | error error => exact ⟨_, .unordered horder⟩
    | ok order =>
      exact hhere.elim (fun hhere => ⟨_, .job horder hhere⟩)
        fun hhere => ⟨_, .sent (.job horder hhere)⟩
  | block declared children =>
    exact hhere.elim (fun hhere => ⟨_, .block hhere⟩) fun hhere => ⟨_, .sent (.block hhere)⟩

def stepped (core : Core) (ended : Dispatched) : Run σ (Core × StepResult) := do
  let step := ended.work.core
  if step.hasFailed || !step.exceptions.isEmpty then
    Run.note (.stepFailed step.name core.name)
    return (core, some step.exceptions)
  else return (core.mapContext (·.overlay step.context), none)

theorem runStep_eq (call : Call) (core : Core) (signature : Signature) :
    shell.runStep call core signature = Run.draw shell.collaborators.freshId >>= fun id =>
      shell.dispatchReady call.inner (stepUnit id core signature) >>= stepped core := by
  unfold runStep
  refine congrArg (_ >>= ·) (funext fun id => ?_)
  exact congrArg (· >>= _) (shell.dispatchStep_eq call.inner id core signature)

/-- A step changes nothing of its task but the data. -/
theorem runStep_context (call : Call) (core : Core) (signature : Signature) :
    (shell.runStep call core signature).Ensures fun ended _ =>
      ∃ context, ended.1 = { core with context } := by
  rw [runStep_eq]
  refine .bind (.draw fun id => .bind (.of_forall fun ended _ => ?_))
  unfold stepped
  dsimp only
  split
  · exact .bind (.note (.pure ⟨core.context, rfl⟩))
  · exact .pure ⟨_, rfl⟩

/-- The units that may be dispatched while a running unit is executed. -/
inductive Involves (core : Core) : Body Work → Work → Prop
  | step {model : Option (List Procedure)} {signature : Signature} (id : Uuid) (other : Core) :
    ¬ Single core → signature ∈ core.fidelities.selects →
      Involves core (.task model []) (stepUnit id other signature)
  | standIn (id : Uuid) (other : Core) (signature : Signature) (operation : Operation) :
    Work.Travels ⟨core, .task none []⟩ →
      Involves core (.task none []) (standInUnit id other signature operation)
  | errand {model : Option (List Procedure)} {errand : Errand} {errands : List Errand}
    (context : Context) : Involves core (.task model (errand :: errands))
      ⟨errand.core.mapContext (·.overlay context), .task errand.model errands⟩
  | child {body : Body Work} {child : Work} (scope : Context) :
    child ∈ Work.children ⟨core, body⟩ →
      Involves core body (child.mapCore (·.mapContext (·.withScope scope)))

theorem Departs.involves {core : Core} {body sent : Body Work} (h : Departs core body sent)
    (hkind : Work.kind ⟨core, sent⟩ = .task) (id : Uuid) (other : Core) (signature : Signature)
    (operation : Operation) : Involves core body (standInUnit id other signature operation) := by
  cases h with
  | task _ htravels => exact .standIn id other signature operation htravels
  | _ => cases hkind

/-- What passes to an execution from those of the units that are dispatched inside it, holds of all
executions. -/
@[elab_as_elim]
theorem execution_induction {motive : Core → Body Work → Prop}
    (step : ∀ core body, (∀ unit, Involves core body unit → ∀ context,
      motive (Core.setStatus { unit.core with context } .running) unit.body) → motive core body)
    (core : Core) (body : Body Work) : motive core body := by
  have hown (core : Core) (hsingle : Single core) (hown : ¬ Work.Travels ⟨core, .task none []⟩) :
      motive core (.task none []) := by
    refine step core _ fun unit hinvolves context => ?_
    cases hinvolves with
    | step _ _ hflow => exact absurd hsingle hflow
    | standIn _ _ _ _ htravels => exact absurd htravels hown
    | child _ hchild => cases hchild
  have hstandIn (id : Uuid) (other : Core) (signature : Signature) (operation : Operation)
      (context : Context) : let unit := standInUnit id other signature operation
        motive (Core.setStatus { unit.core with context } .running) unit.body := by
    refine hown _ (Nat.le_refl 1) fun htravels => ?_
    cases htravels _ rfl
  have hplain (core : Core) (model : Option (List Procedure)) : motive core (.task model []) := by
    refine step core _ fun unit hinvolves context => ?_
    cases hinvolves with
    | standIn id other signature operation => exact hstandIn id other signature operation context
    | child _ hchild => cases hchild
    | step id other =>
      -- a step is no flow: it dispatches nothing but a stand-in
      refine step _ _ fun unit hinvolves context => ?_
      cases hinvolves with
      | step _ _ hflow => exact absurd (Nat.le_refl 1) hflow
      | standIn id other signature operation =>
        exact hstandIn id other signature operation context
      | child _ hchild => cases hchild
  have htask (errands : List Errand) : ∀ core model, motive core (.task model errands) := by
    induction errands with
    | nil => exact hplain
    | cons errand errands ih =>
      refine fun core model => step core _ fun unit hinvolves context => ?_
      cases hinvolves with
      | errand => exact ih _ _
      | child _ hchild => cases hchild
  have hall (work : Work) : ∀ core, motive core work.body := by
    induction work using Work.induction with
    | step work ih =>
      intro core
      obtain ⟨own, body⟩ := work
      cases body with
      | task model errands => exact htask errands core model
      | _ =>
        refine step core _ fun unit hinvolves context => ?_
        cases hinvolves with
        | child _ hchild => exact ih _ hchild _
  exact hall ⟨core, body⟩ core

end Shell

theorem Run.Composes.runStep {σ : Type} {Q : ∀ α : Type, Run σ α → Prop} (h : Run.Composes Q)
    (shell : Shell σ) {call : Call} {core : Core} {signature : Signature}
    (hdraw : Q _ (Run.draw shell.collaborators.freshId))
    (hdispatch : ∀ id, Q _ (shell.dispatchReady call.inner (Shell.stepUnit id core signature))) :
    Q _ (shell.runStep call core signature) := by
  rw [shell.runStep_eq]
  refine h.bind hdraw fun id => h.bind (hdispatch id) fun ended => ?_
  unfold Shell.stepped
  dsimp only
  split
  · exact h.bind (h.note _ (by simp)) fun _ => h.pure _
  · exact h.pure _

end ServiceShell
