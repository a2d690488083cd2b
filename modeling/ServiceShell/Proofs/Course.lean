import ServiceShell.Proofs.Framing
import ServiceShell.Proofs.JobRun
/-!
The course of a composite through its children: which of them it dispatches, in which scope and in
which world, and what it is left with.
-/
namespace ServiceShell
variable {σ : Type}

/-- The dispatch of a child, in the scope that it is given and the world that it finds. -/
structure Visit (σ : Type) where
  child : Work
  scope : Context
  world : World σ

def Visit.dispatch (shell : Shell σ) (call : Call) (kind : Kind) (parent : String)
    (visit : Visit σ) : Outcome σ Work :=
  (Position.child call kind parent visit.scope).dispatch shell visit.child visit.world

namespace Visit

theorem dispatch_announced {shell : Shell σ} {call : Call}
    (hdepth : call.depth ≤ shell.config.maxDelegationDepth) (kind : Kind) (parent : String)
    (visit : Visit σ) : ∃ rest, (visit.dispatch shell call kind parent).events =
      .dispatched call.depth (visit.child.mapCore (·.mapContext (·.withScope visit.scope))) ::
        rest := by
  let position := Position.child call kind parent visit.scope
  let entered := visit.child.mapCore (·.mapContext (·.withScope visit.scope))
  have hentered : position.enter visit.child = .ok entered := rfl
  obtain ⟨before, after, hevents, -, -⟩ :=
    (position.dispatch_frames shell hentered hdepth visit.world).events
  exact ⟨_, hevents⟩

theorem dispatch_unscoped (shell : Shell σ) (call : Call) (kind : Kind) (parent : String)
    (visit : Visit σ) :
    (visit.dispatch shell call kind parent).value.core.context.scope = none := by
  have hvalue := (shell.runner call visit.child).runIn_value kind parent visit.scope visit.world
  rw [dispatch, Position.dispatch, hvalue]
  rfl

end Visit

inductive Step (σ : Type) where
  | left (child : Work)
  | visited (visit : Visit σ)

namespace Step

def child : Step σ → Work
  | left child => child
  | visited visit => visit.child

def visit? : Step σ → Option (Visit σ)
  | left _ => none
  | visited visit => some visit

def ended (run : Visit σ → Outcome σ Work) : Step σ → Work
  | left child => child
  | visited visit => (run visit).value

def events (run : Visit σ → Outcome σ Work) : Step σ → List Event
  | left _ => []
  | visited visit => (run visit).events

end Step

/-- How a composite gets from a context and a world to others through its children. A resuming one
leaves out those that are done, and one that stops leaves those behind a child that fails. -/
inductive Course (run : Visit σ → Outcome σ Work) (resuming stops : Bool) :
    Context → World σ → List (Step σ) → Context → World σ → Prop
  | nil {context : Context} {world : World σ} :
    Course run resuming stops context world [] context world
  | left {context last : Context} {world later : World σ} {child : Work} {rest : List (Step σ)} :
    child.LeftOut resuming → Course run resuming stops context world rest last later →
      Course run resuming stops context world (.left child :: rest) last later
  | passed {visit : Visit σ} {last : Context} {later : World σ} {rest : List (Step σ)} :
    ¬ visit.child.LeftOut resuming → (stops = true → ¬ (run visit).value.core.hasFailed) →
      Course run resuming stops (visit.scope.overlay (run visit).value.core.context)
        (run visit).world rest last later →
      Course run resuming stops visit.scope visit.world (.visited visit :: rest) last later
  | stopped {visit : Visit σ} {unreached : List Work} :
    ¬ visit.child.LeftOut resuming → stops = true → (run visit).value.core.hasFailed →
      Course run resuming stops visit.scope visit.world (.visited visit :: unreached.map .left)
        (visit.scope.overlay (run visit).value.core.context) (run visit).world

def failures (run : Visit σ → Outcome σ Work) (steps : List (Step σ)) : List Work :=
  ((steps.filterMap Step.visit?).map fun visit => (run visit).value).filter (·.core.hasFailed)

theorem failures_visited (run : Visit σ → Outcome σ Work) (visit : Visit σ)
    (steps : List (Step σ)) :
    failures run (.visited visit :: steps) = if (run visit).value.core.hasFailed
      then (run visit).value :: failures run steps else failures run steps := by
  simp only [failures, List.filterMap_cons, Step.visit?, List.map_cons, List.filter_cons]

theorem failures_visits (run : Visit σ → Outcome σ Work) (visits : List (Visit σ)) :
    failures run (visits.map .visited) =
      (visits.map fun visit => (run visit).value).filter (·.core.hasFailed) := by
  simp [failures, List.filterMap_map, Function.comp_def, Step.visit?]

structure Through (run : Visit σ → Outcome σ Work) (resuming stops : Bool) (context : Context)
    (world : World σ) (children : List Work) (steps : List (Step σ))
    (outcome : Outcome σ Shell.Children) : Prop where
  course : Course run resuming stops context world steps outcome.value.context outcome.world
  children : steps.map Step.child = children
  ended : outcome.value.children = steps.map (Step.ended run)
  failed : outcome.value.failed = failures run steps
  events : ∃ notes, outcome.events = steps.flatMap (Step.events run) ++ List.map Event.note notes

namespace Through
variable {run : Visit σ → Outcome σ Work} {resuming stops : Bool} {context : Context}
  {world : World σ} {rest : List Work} {steps : List (Step σ)} {later : Outcome σ Shell.Children}

theorem nil : Through run resuming stops context world [] [] ⟨⟨context, [], []⟩, world, []⟩ :=
  ⟨.nil, rfl, rfl, rfl, [], rfl⟩

theorem left (h : Through run resuming stops context world rest steps later) {child : Work}
    (hskip : child.LeftOut resuming) :
    Through run resuming stops context world (child :: rest) (.left child :: steps)
      ⟨{ later.value with children := child :: later.value.children }, later.world,
        later.events⟩ where
  course := .left hskip h.course
  children := congrArg (child :: ·) h.children
  ended := congrArg (child :: ·) h.ended
  failed := h.failed
  events := h.events

theorem passed (visit : Visit σ) (h : Through run resuming stops
      (visit.scope.overlay (run visit).value.core.context) (run visit).world rest steps later)
    (hreached : ¬ visit.child.LeftOut resuming)
    (hgoes : stops = true → ¬ (run visit).value.core.hasFailed) {failed : List Work}
    (hfailed : failed = if (run visit).value.core.hasFailed
      then (run visit).value :: later.value.failed else later.value.failed) :
    Through run resuming stops visit.scope visit.world (visit.child :: rest)
      (.visited visit :: steps)
      ⟨⟨later.value.context, (run visit).value :: later.value.children, failed⟩, later.world,
        (run visit).events ++ later.events⟩ where
  course := .passed hreached hgoes h.course
  children := congrArg (visit.child :: ·) h.children
  ended := congrArg ((run visit).value :: ·) h.ended
  failed := by rw [hfailed, failures_visited, h.failed]
  events := by
    obtain ⟨notes, hevents⟩ := h.events
    refine ⟨notes, ?_⟩
    rw [hevents, List.flatMap_cons, List.append_assoc]
    rfl

theorem stopped (visit : Visit σ) (hreached : ¬ visit.child.LeftOut resuming)
    (hfails : (run visit).value.core.hasFailed) (unreached : List Work) (notes : List Note) :
    Through run resuming true visit.scope visit.world (visit.child :: unreached)
      (.visited visit :: unreached.map .left)
      ⟨⟨visit.scope.overlay (run visit).value.core.context, (run visit).value :: unreached,
        [(run visit).value]⟩, (run visit).world, (run visit).events ++ notes.map .note⟩ where
  course := .stopped hreached rfl hfails
  children := by simp [Function.comp_def, Step.child]
  ended := by simp [Function.comp_def, Step.ended]
  failed := by
    have hnone : failures run (unreached.map .left) = [] := by
      simp [failures, Step.visit?, Function.comp_def]
    rw [failures_visited, if_pos hfails, hnone]
  events := by
    refine ⟨notes, ?_⟩
    simp [Step.events]

end Through

namespace Shell
variable (shell : Shell σ)

/-- A job dispatches every child that it does not leave out, whatever becomes of the others. -/
theorem runJobChildren_through (call : Call) (job : String) (resuming : Bool) (context : Context)
    (children : List Work) (world : World σ) :
    ∃ steps, Through (Visit.dispatch shell call .job job) resuming false context world children
      steps (runJobChildren job resuming context (children.map (shell.runner call)) world) := by
  induction children generalizing context world with
  | nil => exact ⟨[], .nil⟩
  | cons child rest ih =>
    rw [List.map_cons]
    unfold runJobChildren
    rw [shell.runner_child]
    by_cases hskip : child.LeftOut resuming
    · obtain ⟨steps, hsteps⟩ := ih context world
      rw [if_pos (Work.leftOut_iff.mpr hskip), bind_pure_comp, Run.map_apply]
      exact ⟨_, hsteps.left hskip⟩
    · let outcome := (shell.runner call child).runIn .job job context world
      obtain ⟨steps, hsteps⟩ := ih (context.overlay outcome.value.core.context) outcome.world
      rw [if_neg fun h => hskip (Work.leftOut_iff.mp h)]
      simp only [bind_pure_comp, Run.bind_apply, Run.map_apply]
      exact ⟨_, hsteps.passed ⟨child, context, world⟩ hskip (absurd · Bool.false_ne_true) rfl⟩

/-- A block dispatches every child that it does not leave out, up to the first that fails. -/
theorem runBlockChildren_through (call : Call) (block : String) (resuming : Bool)
    (context : Context) (children : List Work) (world : World σ) :
    ∃ steps, Through (Visit.dispatch shell call .block block) resuming true context world children
      steps (runBlockChildren block resuming context (children.map (shell.runner call)) world) := by
  induction children generalizing context world with
  | nil => exact ⟨[], .nil⟩
  | cons child rest ih =>
    rw [List.map_cons]
    unfold runBlockChildren
    rw [shell.runner_child]
    by_cases hskip : child.LeftOut resuming
    · obtain ⟨steps, hsteps⟩ := ih context world
      rw [if_pos (Work.leftOut_iff.mpr hskip), bind_pure_comp, Run.map_apply]
      exact ⟨_, hsteps.left hskip⟩
    · let outcome := (shell.runner call child).runIn .block block context world
      rw [if_neg fun h => hskip (Work.leftOut_iff.mp h)]
      simp only [bind_pure_comp, Run.bind_apply]
      by_cases hfails : outcome.value.core.hasFailed = true
      · have hrest : (rest.map (shell.runner call)).map Runner.child = rest := by
          simp [Function.comp_def]
        rw [if_pos hfails, hrest, Run.map_apply, Run.note_apply]
        exact ⟨_, .stopped ⟨child, context, world⟩ hskip hfails rest [_]⟩
      · obtain ⟨steps, hsteps⟩ := ih (context.overlay outcome.value.core.context) outcome.world
        rw [if_neg hfails, Run.map_apply]
        exact ⟨_, hsteps.passed ⟨child, context, world⟩ hskip (fun _ => hfails)
          (if_neg hfails).symm⟩

theorem failureNotes_framing (core : Core) (run : Children) (owner : Uuid) :
    Framing owner (failureNotes core run) := by
  unfold failureNotes
  split
  · exact .nil
  · exact .notes [_]

def ranBlock (core : Core) (run : Children) : Core :=
  match run.failed with
  | [] => { core with context := run.context }
  | child :: _ => Core.setStatus { core with context := run.context } child.core.status

theorem execute_block (call : Call) {core : Core} {resuming : Bool} {declared : Context}
    {children : List Work} (hhere : runsHere core) (world : World σ) :
    let run := runBlockChildren core.name resuming core.context
      (children.map (shell.runner call.inner)) world
    (shell.execute call core resuming (.block declared children) world) =
      ⟨⟨⟨ranBlock core run.value, .block declared run.value.children⟩, .ok .inProcess⟩, run.world,
        run.events⟩ := by
  rw [(Way.block hhere).execute_eq]
  unfold runBlock ranBlock
  simp only [Run.bind_apply, Run.pure_apply]
  generalize runBlockChildren core.name resuming core.context _ world = run
  obtain ⟨⟨context, children, failed⟩, later, events⟩ := run
  cases failed <;> simp

end Shell

namespace Position
variable (position : Position) (shell : Shell σ)

/-- A job that is run here, behind dependers that let it come to its children. -/
theorem dispatch_job {job : Work} {core : Core} {dependencies : List Dependency}
    {children : List Work} {positions : List Nat} {context : Context}
    (hentered : position.enter job = .ok ⟨core, .job dependencies children⟩)
    (hdepth : position.call.depth ≤ shell.config.maxDelegationDepth)
    (hrealized : Depender.realizeAll position.call.args core.dependers core.context =
      (context, none))
    (hhere : Shell.runsHere core) (horder : Job.order children dependencies = .ok positions)
    (world : World σ) :
    ∃ steps run,
      Through (Visit.dispatch shell position.call.inner .job core.name) core.status.isResumable
        false context world (Job.arrange children positions) steps run ∧
      (position.dispatch shell job world).Frames job.core.id
        [.dispatched position.call.depth (position.announced job)] run.world run.events ∧
      (position.dispatch shell job world).value = position.leave
        ⟨Core.setStatus { core with context := run.value.context }
          (if run.value.failed.isEmpty then .done else .failed),
        .job dependencies run.value.children⟩ := by
  have hrunning : Shell.runsHere (Core.setStatus { core with context } .running) := hhere
  obtain ⟨hframes, hvalue⟩ := position.dispatch_executed shell hentered hdepth hrealized world
  obtain ⟨steps, hsteps⟩ := shell.runJobChildren_through position.call.inner core.name
    core.status.isResumable context (Job.arrange children positions) world
  rw [shell.execute_job _ hrunning horder] at hvalue hframes
  refine ⟨steps, _, hsteps, ?_, ?_⟩
  · exact hframes.absorb (Shell.failureNotes_framing _ _ _)
  · rw [hvalue]
    exact congrArg position.leave (Shell.ranJob_ended core context _ dependencies)

/-- A block that is run here, behind dependers that let it come to its children. -/
theorem dispatch_block {block : Work} {core : Core} {declared : Context} {children : List Work}
    {context : Context} (hentered : position.enter block = .ok ⟨core, .block declared children⟩)
    (hdepth : position.call.depth ≤ shell.config.maxDelegationDepth)
    (hrealized : Depender.realizeAll position.call.args core.dependers core.context =
      (context, none))
    (hhere : Shell.runsHere core) (world : World σ) :
    ∃ steps run,
      Through (Visit.dispatch shell position.call.inner .block core.name) core.status.isResumable
        true context world children steps run ∧
      (position.dispatch shell block world).Frames block.core.id
        [.dispatched position.call.depth (position.announced block)] run.world run.events ∧
      (position.dispatch shell block world).value = position.leave
        ⟨(Shell.ranBlock (Core.setStatus { core with context } .running) run.value).finish,
          .block declared run.value.children⟩ := by
  have hrunning : Shell.runsHere (Core.setStatus { core with context } .running) := hhere
  obtain ⟨hframes, hvalue⟩ := position.dispatch_executed shell hentered hdepth hrealized world
  obtain ⟨steps, hsteps⟩ := shell.runBlockChildren_through position.call.inner core.name
    core.status.isResumable context children world
  rw [shell.execute_block _ hrunning] at hvalue hframes
  exact ⟨steps, _, hsteps, hframes, hvalue⟩

end Position
end ServiceShell
