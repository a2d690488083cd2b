import Mathlib.Data.List.Nodup
import Mathlib.Data.List.Pairwise
import Mathlib.Logic.Relation
import ServiceShell.Proofs.DoneThroughout
import ServiceShell.Proofs.Stores
/-!
What persisters hold after a tree of units has been executed in this process: the slots of the units
that were dispatched and did not fail, and no others, hold what these units had when their own
dispatches ended, whatever became of the units around them.
-/
namespace ServiceShell
variable {σ : Type}

/-- The dispatch of a unit: where in a tree it takes place, and the world that it finds. -/
structure Occasion (σ : Type) where
  position : Position
  unit : Work
  world : World σ

namespace Occasion
variable (shell : Shell σ)

abbrev ofVisit (position : Position) (parent : Work) (visit : Visit σ) : Occasion σ :=
  ⟨.child position.call.inner parent.kind parent.name visit.scope, visit.child, visit.world⟩

def run (occasion : Occasion σ) : Outcome σ Dispatched :=
  match occasion.position with
  | .root txn provider args => shell.dispatch ⟨0, txn, provider, args⟩ occasion.unit occasion.world
  | .child call _ _ scope => (shell.runner call occasion.unit).dispatch
      (occasion.unit.core.mapContext (·.withScope scope)) occasion.world

def completed (occasion : Occasion σ) : Work := (occasion.run shell).value.work

structure Runs (occasion : Occasion σ) (ready : Work) (steps : List (Step σ)) : Prop where
  entered : occasion.position.enter occasion.unit = .ok ready
  composite : ready.isComposite
  here : Shell.runsHere ready.core
  ordered : ready.body.sequence? = .ok (steps.map Step.child)
  course : ∃ context last later, Depender.realizeAll occasion.position.call.args
      ready.core.dependers ready.core.context = (context, none) ∧
    Course (occasion.position.visiting shell ready) ready.core.status.isResumable
      (ready.kind = .block) context occasion.world steps last later

def Makes (outer inner : Occasion σ) : Prop :=
  ∃ ready steps visit, outer.Runs shell ready steps ∧ .visited visit ∈ steps ∧
    inner = .ofVisit outer.position ready visit

/-- All dispatches that a dispatch makes, directly or through others, and the dispatch itself. -/
def Includes : Occasion σ → Occasion σ → Prop := Relation.ReflTransGen (Makes shell)

/-- All that the dispatch does, it does in this process, for a tree of initial units whose
persisters have slots of their own. -/
structure Local (occasion : Occasion σ) : Prop where
  depth : occasion.position.call.depth = 0
  initial : ∀ unit ∈ occasion.unit.units, unit.core.status = .initial
  slots : occasion.unit.slots.Nodup
  stays : Staying (occasion.run shell).events

end Occasion

namespace Work

theorem slots_eq (work : Work) :
    work.slots = work.children.flatMap slots ++ work.core.persisters.map Persister.slot :=
  work.flatMap_units _

theorem slots_congr {work other : Work} (hchildren : work.children = other.children)
    (hpersisters : work.core.persisters = other.core.persisters) : work.slots = other.slots := by
  rw [slots_eq, slots_eq, hchildren, hpersisters]

theorem resetCore_persisters (args : List Argument) (unit : Work) :
    (resetCore args unit).persisters = unit.core.persisters := by
  obtain ⟨status, exceptions, trace, hcore⟩ := resetCore_frame args unit
  rw [hcore]

theorem reset_slots (args : List Argument) (work : Work) :
    (work.reset args).slots = work.slots := by
  unfold reset
  split
  · unfold slots
    rw [units_mapUnits, List.flatMap_map]
    refine List.flatMap_congr fun unit _ => ?_
    rw [mapUnits_core, resetCore_persisters]
  · rfl

theorem reset_initial (args : List Argument) {work : Work}
    (h : ∀ unit ∈ work.units, unit.core.status = .initial) :
    ∀ unit ∈ (work.reset args).units, unit.core.status = .initial := by
  unfold reset
  split
  · rw [units_mapUnits]
    refine List.forall_mem_map.mpr fun unit hunit => ?_
    rw [mapUnits_core]
    by_cases hstate : unit.core.control.state = .initial
    · rw [resetCore_of_initial hstate]
    · rw [resetCore_of_not_initial hstate]
      exact h unit hunit
  · exact h

end Work

namespace Position
variable {work ready : Work}

theorem mem_kept_of_leave (position : Position) {pair : String × Json.Value}
    (h : pair ∈ (position.leave work).units.flatMap Work.kept) :
    pair ∈ work.units.flatMap Work.kept := by
  cases position with
  | root => exact h
  | child call kind parent scope =>
    rw [Work.flatMap_units, List.mem_append, leave_children] at h
    rw [Work.flatMap_units, List.mem_append]
    refine h.imp_right fun hown => ?_
    obtain ⟨slot, value⟩ := pair
    obtain ⟨persister, hpersister, hslot, hvalue⟩ := Work.mem_kept.mp hown
    exact Work.mem_kept.mpr ⟨persister, hpersister, hslot, Context.get?_of_clearScope hvalue⟩

theorem enter_slots (position : Position) (h : position.enter work = .ok ready) :
    ready.slots = work.slots := by
  cases position with
  | root txn provider args =>
    obtain ⟨chosen, -, rfl⟩ := Shell.exists_readied h
    exact Shell.readied_keeps Work.slots (Work.reset_slots args) (Work.slots_congr rfl rfl)
  | child call kind parent scope =>
    obtain rfl := Except.ok.inj h
    exact Work.slots_congr rfl rfl

theorem enter_persisters (position : Position) (h : position.enter work = .ok ready) :
    ready.core.persisters = work.core.persisters := by
  cases position with
  | root txn provider args =>
    obtain ⟨chosen, -, rfl⟩ := Shell.exists_readied h
    refine Shell.readied_keeps (·.core.persisters) (fun unit => ?_) rfl
    unfold Work.reset
    split
    · rw [Work.mapUnits_core, Work.resetCore_persisters]
    · rfl
  | child call kind parent scope =>
    obtain rfl := Except.ok.inj h
    rfl

theorem enter_initial (position : Position) (h : position.enter work = .ok ready)
    (hinitial : ∀ unit ∈ work.units, unit.core.status = .initial) :
    ∀ unit ∈ ready.units, unit.core.status = .initial := by
  -- what is changed of the unit in front of a reset is not its status
  have hsame {other : Work} (hchildren : other.children = work.children)
      (hstatus : other.core.status = work.core.status) :
      ∀ unit ∈ other.units, unit.core.status = .initial := by
    intro unit hunit
    obtain ⟨child, hchild, hbelow⟩ | rfl := Work.mem_units.mp hunit
    · exact hinitial unit (Work.mem_units.mpr (.inl ⟨child, hchildren ▸ hchild, hbelow⟩))
    · exact hstatus.trans (hinitial work (Work.mem_units.mpr (.inr rfl)))
  cases position with
  | root txn provider args =>
    obtain ⟨chosen, -, rfl⟩ := Shell.exists_readied h
    unfold Shell.readied
    dsimp only
    split
    · exact Work.reset_initial args (hsame rfl rfl)
    · exact hsame rfl rfl
  | child call kind parent scope =>
    obtain rfl := Except.ok.inj h
    exact hsame rfl rfl

end Position

namespace Course
variable {run : Visit σ → Outcome σ Work} {resuming stops : Bool} {context last : Context}
  {world later : World σ} {steps : List (Step σ)}

/-- How a course begins: with a child that is left out, or with a visit that it finds the context
and the world of, behind which it is over or goes on. -/
theorem cons_cases {step : Step σ}
    (h : Course run resuming stops context world (step :: steps) last later) :
    (∃ child, step = .left child ∧ child.LeftOut resuming ∧
        Course run resuming stops context world steps last later) ∨
      ∃ child, let visit : Visit σ := ⟨child, context, world⟩
        step = .visited visit ∧ ¬ child.LeftOut resuming ∧
        (stops = true ∧ (run visit).value.core.hasFailed ∧
            (∃ unreached : List Work, steps = unreached.map .left) ∨
          (stops = true → ¬ (run visit).value.core.hasFailed) ∧
            Course run resuming stops (context.overlay (run visit).value.core.context)
              (run visit).world steps last later) := by
  cases h with
  | left hskip hrest => exact .inl ⟨_, rfl, hskip, hrest⟩
  | passed hreached hgoes hrest => exact .inr ⟨_, rfl, hreached, .inr ⟨hgoes, hrest⟩⟩
  | stopped hreached hstops hfails => exact .inr ⟨_, rfl, hreached, .inl ⟨hstops, hfails, _, rfl⟩⟩

/-- A composite comes through the same children from the same start by the same steps. -/
theorem unique (h : Course run resuming stops context world steps last later)
    {others : List (Step σ)} {final : Context} {after : World σ}
    (hother : Course run resuming stops context world others final after)
    (hchildren : steps.map Step.child = others.map Step.child) : steps = others := by
  induction steps generalizing context world others with
  | nil => exact (List.map_eq_nil_iff.mp hchildren.symm).symm
  | cons step steps ih =>
    cases others with
    | nil => cases hchildren
    | cons other others =>
      obtain ⟨hsame, hrest⟩ := List.cons.inj hchildren
      obtain ⟨child, rfl, hskip, hnext⟩ | ⟨child, rfl, hreached, hgoes⟩ := h.cons_cases
      · obtain ⟨twin, rfl, -, hlater⟩ | ⟨twin, rfl, hreached, -⟩ := hother.cons_cases
        · obtain rfl : child = twin := hsame
          rw [ih hnext hlater hrest]
        · obtain rfl : child = twin := hsame
          exact absurd hskip hreached
      · obtain ⟨twin, rfl, hskip, -⟩ | ⟨twin, rfl, -, hlater⟩ := hother.cons_cases
        · obtain rfl : child = twin := hsame
          exact absurd hskip hreached
        · obtain rfl : child = twin := hsame
          obtain ⟨hstops, hfails, unreached, rfl⟩ | ⟨hgoes, hnext⟩ := hgoes
          · obtain ⟨-, -, behind, rfl⟩ | ⟨hgoes, -⟩ := hlater
            · simp only [List.map_map, Function.comp_def, Step.child, List.map_id'] at hrest
              rw [hrest]
            · exact absurd hfails (hgoes hstops)
          · obtain ⟨hstops, hfails, -⟩ | ⟨-, hlater⟩ := hlater
            · exact absurd hfails (hgoes hstops)
            · rw [ih hnext hlater hrest]

end Course

namespace Shell
variable (shell : Shell σ)

theorem failureNotes_stores (core : Core) (run : Children) :
    stores (failureNotes core run) = [] := by
  unfold failureNotes
  split <;> rfl

theorem ranJob_persisters (core : Core) (run : Children) :
    (ranJob core run).persisters = core.persisters := by
  unfold ranJob
  split <;> rfl

theorem ranBlock_persisters (core : Core) (run : Children) :
    (ranBlock core run).persisters = core.persisters := by
  unfold ranBlock
  split <;> rfl

theorem unfailed_of_ranJob {core : Core} {run : Children} (h : ¬ (ranJob core run).hasFailed) :
    run.failed = [] := by
  by_contra hfailed
  refine h ?_
  unfold ranJob
  rw [if_neg (by simpa using hfailed)]
  rfl

structure Ended (core : Core) (run : Outcome σ Children) (attempt : Outcome σ Attempt) : Prop where
  result : ∃ route, attempt.value.result = .ok route
  stored : stores attempt.events = stores run.events
  inside : run.events <:+: attempt.events
  children : attempt.value.work.children = run.value.children
  persisters : attempt.value.work.core.persisters = core.persisters
  unfailed : ¬ attempt.value.work.core.hasFailed → run.value.failed = []

theorem execute_ended (call : Call) (core : Core) {body : Body Work} (resuming : Bool)
    (hcomposite : Work.isComposite ⟨core, body⟩) (hhere : runsHere core) {ordered : List Work}
    (hordered : body.sequence? = .ok ordered) (world : World σ) :
    ∃ steps run, Through (Visit.dispatch shell call.inner (Work.kind ⟨core, body⟩) core.name)
        resuming (Work.kind ⟨core, body⟩ = .block) core.context world ordered steps run ∧
      Ended core run (shell.execute call core resuming body world) := by
  cases body with
  | task => cases hcomposite
  | model => cases hcomposite
  | job dependencies children =>
    cases hpositions : Job.order children dependencies with
    | error error => simp [Body.sequence?, hpositions, Except.map] at hordered
    | ok positions =>
      rw [Body.sequence?, hpositions] at hordered
      obtain rfl := Except.ok.inj hordered
      obtain ⟨steps, hsteps⟩ := shell.runJobChildren_through call.inner core.name resuming
        core.context (Job.arrange children positions) world
      refine ⟨steps, _, hsteps, ?_⟩
      rw [shell.execute_job call hhere hpositions world]
      refine ⟨⟨_, rfl⟩, ?_, (List.prefix_append _ _).isInfix, rfl, ranJob_persisters core _,
        fun hunfailed => unfailed_of_ranJob hunfailed⟩
      rw [stores_append, failureNotes_stores, List.append_nil]
  | block declared children =>
    obtain rfl := Except.ok.inj hordered
    obtain ⟨steps, hsteps⟩ := shell.runBlockChildren_through call.inner core.name resuming
      core.context children world
    have hexecuted : shell.execute call core resuming (.block declared children) world = _ :=
      shell.execute_block call hhere world
    refine ⟨steps, _, hsteps, ?_⟩
    rw [hexecuted]
    refine ⟨⟨_, rfl⟩, rfl, List.infix_rfl, rfl, ?_, unfailed_of_ranBlock ?_⟩
    · exact ranBlock_persisters core _
    · intro child hchild
      rw [hsteps.failed] at hchild
      exact (List.mem_filter.mp hchild).2

end Shell

namespace Occasion
variable {shell : Shell σ} {outer inner other : Occasion σ} {ready : Work} {steps : List (Step σ)}

theorem Runs.unique (h : outer.Runs shell ready steps) {after : Work} {others : List (Step σ)}
    (hother : outer.Runs shell after others) : ready = after ∧ steps = others := by
  obtain rfl := Except.ok.inj (h.entered.symm.trans hother.entered)
  obtain ⟨context, last, later, hrealized, hcourse⟩ := h.course
  obtain ⟨found, final, behind, hagain, hcontinued⟩ := hother.course
  obtain ⟨rfl, -⟩ := Prod.mk.inj (hrealized.symm.trans hagain)
  exact ⟨rfl, hcourse.unique hcontinued (Except.ok.inj (h.ordered.symm.trans hother.ordered))⟩

theorem Runs.child_mem (h : outer.Runs shell ready steps) {step : Step σ} (hstep : step ∈ steps) :
    step.child ∈ ready.children :=
  (Work.sequence?_perm h.ordered).mem_iff.mp (List.mem_map_of_mem hstep)

/-- What passes from the dispatches that a dispatch makes to the dispatch holds of all. -/
theorem induction (shell : Shell σ) {motive : Occasion σ → Prop}
    (step : ∀ outer, (∀ inner, outer.Makes shell inner → motive inner) → motive outer)
    (outer : Occasion σ) : motive outer := by
  have hbelow (work : Work) : ∀ outer : Occasion σ, (∀ ready,
      outer.position.enter outer.unit = .ok ready → ready.children = work.children) →
        motive outer := by
    induction work using Work.induction with
    | step work ih =>
      intro outer hready
      refine step outer fun inner hmakes => ?_
      obtain ⟨ready, steps, visit, hruns, hvisit, rfl⟩ := hmakes
      have hchild : visit.child ∈ work.children :=
        hready ready hruns.entered ▸ hruns.child_mem hvisit
      refine ih visit.child hchild _ fun entered hentered => ?_
      obtain rfl := Except.ok.inj hentered
      rfl
  cases hentered : outer.position.enter outer.unit with
  | error error => exact hbelow outer.unit outer fun ready hready => by simp [hentered] at hready
  | ok ready =>
    refine hbelow ready outer fun other hother => ?_
    rw [Except.ok.inj (hentered.symm.trans hother)]

theorem run_supervises (shell : Shell σ) (outer : Occasion σ) :
    let ended := shell.supervise outer.position.call (outer.position.announced outer.unit)
      (shell.executeEntered outer.position.call (outer.position.enter outer.unit)) outer.world
    outer.completed shell = ended.value.work ∧
      stores (outer.run shell).events = stores ended.events ∧
        ended.events <:+: (outer.run shell).events := by
  obtain ⟨position, unit, world⟩ := outer
  cases position with
  | root txn provider args =>
    have hexecute := shell.executePrepared_eq (Call.mk 0 txn provider args) unit
    have hrun : run shell ⟨.root txn provider args, unit, world⟩ =
        shell.dispatch ⟨0, txn, provider, args⟩ unit world := rfl
    rw [hrun, shell.dispatch_apply, shell.supervise_congr hexecute]
    refine ⟨?_, by simp [Event.store?]; rfl, (List.prefix_append _ _).isInfix⟩
    rw [completed, hrun, shell.dispatch_apply, shell.supervise_congr hexecute]
    rfl
  | child call kind parent scope =>
    have hrun := congrFun (shell.runner_dispatch call unit
      (unit.core.mapContext (·.withScope scope))) world
    exact ⟨congrArg (·.value.work) hrun, congrArg (fun outcome => stores outcome.events) hrun,
      (congrArg Outcome.events hrun).symm ▸ List.infix_rfl⟩

theorem dispatch_run (shell : Shell σ) (outer : Occasion σ) :
    let outcome := outer.position.dispatch shell outer.unit outer.world
    outcome.value = outer.position.leave (outer.completed shell) ∧
      ∃ notes, outcome.events = (outer.run shell).events ++ List.map Event.note notes := by
  obtain ⟨position, unit, world⟩ := outer
  cases position with
  | root txn provider args =>
    simp only [Position.dispatch, Run.map_apply]
    exact ⟨rfl, [], (List.append_nil _).symm⟩
  | child call kind parent scope =>
    have hvalue := (shell.runner call unit).runIn_value kind parent scope world
    rw [shell.runner_child] at hvalue
    refine ⟨hvalue, ?_⟩
    simp only [Position.dispatch, Shell.Runner.runIn, Run.bind_apply, shell.runner_child]
    have hrun : run shell ⟨.child call kind parent scope, unit, world⟩ =
        (shell.runner call unit).dispatch (unit.core.mapContext (·.withScope scope)) world := rfl
    rw [hrun]
    cases ((shell.runner call unit).dispatch _ world).value.result with
    | ok => exact ⟨[], rfl⟩
    | error error => exact ⟨[_], rfl⟩

structure Comes (shell : Shell σ) (outer : Occasion σ) (ready : Work) (steps : List (Step σ)) :
    Prop where
  runs : outer.Runs shell ready steps
  stored : stores (outer.run shell).events =
    steps.flatMap (fun step => stores (step.events (outer.position.visiting shell ready))) ++
      if (outer.completed shell).core.hasFailed then []
      else (outer.completed shell).units.flatMap Work.kept
  inside : steps.flatMap (Step.events (outer.position.visiting shell ready)) <:+:
    (outer.run shell).events
  children : (outer.completed shell).children =
    steps.map (Step.ended (outer.position.visiting shell ready))
  persisters : (outer.completed shell).core.persisters = outer.unit.core.persisters
  unfailed : ¬ (outer.completed shell).core.hasFailed →
    failures (outer.position.visiting shell ready) steps = []

def Alone (shell : Shell σ) (outer : Occasion σ) : Prop :=
  (∀ inner, ¬ outer.Makes shell inner) ∧ ∃ core, core.persisters = outer.unit.core.persisters ∧
    Shell.Bare core (shell.executeEntered outer.position.call
      (outer.position.enter outer.unit) (outer.position.announced outer.unit))

theorem run_started (hdepth : outer.position.call.depth ≤ shell.config.maxDelegationDepth)
    {core : Core} {body : Body Work} (hentered : outer.position.enter outer.unit = .ok ⟨core, body⟩)
    {context : Context} (hrealized : Depender.realizeAll outer.position.call.args core.dependers
      core.context = (context, none)) :
    let attempt := shell.execute outer.position.call (Core.setStatus { core with context } .running)
      core.status.isResumable body outer.world
    outer.completed shell = attempt.value.finished.ended.work ∧
      stores (outer.run shell).events = stores attempt.events ++
        (if (outer.completed shell).core.hasFailed then []
          else (outer.completed shell).units.flatMap Work.kept) ∧
      attempt.events <:+: (outer.run shell).events := by
  intro attempt
  obtain ⟨hvalue, hstored, hinside⟩ := outer.run_supervises shell
  have hexecuted : shell.executeEntered outer.position.call (.ok ⟨core, body⟩)
      (outer.position.announced outer.unit) = shell.executeReady outer.position.call ⟨core, body⟩ :=
    rfl
  have hstarted := shell.executeReady_started ⟨context, hrealized, rfl⟩ body outer.world
  have hstores := Shell.proceed_stores outer.position.call ⟨core, body⟩
    (fun core resuming => shell.execute outer.position.call core resuming body) outer.world
  dsimp only at hstores
  rw [hrealized] at hstores
  have hframes := shell.supervise_frames core.id outer.position.call
    (outer.position.announced outer.unit) (shell.executeEntered outer.position.call
      (outer.position.enter outer.unit)) hdepth outer.world
  have hproceeds : (Shell.proceed outer.position.call ⟨core, body⟩
      (fun core resuming => shell.execute outer.position.call core resuming body)
      outer.world).Frames core.id [] _ _ := Shell.proceed_frames hrealized outer.world
  rw [hentered] at hvalue hstored hinside hframes
  refine ⟨?_, ?_, ?_⟩
  · rw [hvalue, shell.supervise_value hdepth, hexecuted, hstarted]
  · rw [hvalue, hstored, shell.supervise_stores hdepth, hexecuted]
    exact congrArg (· ++ _) hstores
  · exact (hproceeds.inside.trans hframes.inside).trans hinside

theorem comes (hdepth : outer.position.call.depth ≤ shell.config.maxDelegationDepth)
    {core : Core} {body : Body Work} (hentered : outer.position.enter outer.unit = .ok ⟨core, body⟩)
    (hcomposite : Work.isComposite ⟨core, body⟩) (hhere : Shell.runsHere core)
    {ordered : List Work} (hordered : body.sequence? = .ok ordered) {context : Context}
    (hrealized : Depender.realizeAll outer.position.call.args core.dependers core.context =
      (context, none)) : ∃ steps, outer.Comes shell ⟨core, body⟩ steps := by
  obtain ⟨hcompleted, hstored, hinside⟩ := outer.run_started hdepth hentered hrealized
  obtain ⟨steps, run, hthrough, hended⟩ := shell.execute_ended outer.position.call
    (Core.setStatus { core with context } .running) core.status.isResumable hcomposite
    hhere hordered outer.world
  generalize shell.execute outer.position.call _ core.status.isResumable body outer.world =
    attempt at hcompleted hstored hinside hended
  obtain ⟨⟨work, result⟩, later, events⟩ := attempt
  obtain ⟨⟨route, rfl⟩, hstores, hwithin, hchildren, hpersisters, hunfailed⟩ := hended
  have hkeeps : (outer.completed shell).core.persisters = work.core.persisters ∧
      (outer.completed shell).children = work.children ∧
        (outer.completed shell).core.hasFailed = work.core.hasFailed := by
    rw [hcompleted]
    exact ⟨rfl, rfl, work.core.hasFailed_finish⟩
  obtain ⟨notes, hevents⟩ := hthrough.events
  refine ⟨steps, ⟨hentered, hcomposite, hhere, ?_, _, _, _, hrealized, hthrough.course⟩, ?_, ?_, ?_,
    ?_, fun hfine => ?_⟩
  · rw [hthrough.children]
    exact hordered
  · rw [hstored, hstores, hevents, stores_append, stores_notes, List.append_nil, stores_flatMap]
    rfl
  · refine List.IsInfix.trans ?_ (hwithin.trans hinside)
    rw [hevents]
    exact (List.prefix_append _ _).isInfix
  · rw [hkeeps.2.1, hchildren, hthrough.ended]
    rfl
  · rw [hkeeps.1, hpersisters, ← outer.position.enter_persisters hentered]
    rfl
  · rw [hkeeps.2.2] at hfine
    exact hthrough.failed.symm.trans (hunfailed hfine)

theorem comes_or_alone (hdepth : outer.position.call.depth ≤ shell.config.maxDelegationDepth) :
    (∃ ready steps, outer.Comes shell ready steps) ∨ outer.Alone shell := by
  cases hentered : outer.position.enter outer.unit with
  | error error =>
    refine .inr ⟨?_, outer.unit.core, rfl, ?_⟩
    · rintro inner ⟨ready, steps, visit, hruns, -⟩
      cases hentered.symm.trans hruns.entered
    · rw [hentered]
      exact .pure fun _ => ⟨rfl, fun route hroute => by cases hroute⟩
  | ok ready =>
    obtain ⟨core, body⟩ := ready
    by_cases hcomes : Work.isComposite ⟨core, body⟩ ∧ Shell.runsHere core ∧
        (∃ ordered, body.sequence? = .ok ordered) ∧ ∃ context,
          Depender.realizeAll outer.position.call.args core.dependers core.context = (context, none)
    · obtain ⟨hcomposite, hhere, ⟨ordered, hordered⟩, context, hrealized⟩ := hcomes
      exact .inl ⟨_, outer.comes hdepth hentered hcomposite hhere hordered hrealized⟩
    · refine .inr ⟨?_, core, outer.position.enter_persisters hentered, ?_⟩
      · rintro inner ⟨ready, steps, visit, hruns, -⟩
        obtain rfl := Except.ok.inj (hentered.symm.trans hruns.entered)
        obtain ⟨context, -, -, hrealized, -⟩ := hruns.course
        exact hcomes ⟨hruns.composite, hruns.here, ⟨_, hruns.ordered⟩, context, hrealized⟩
      · rw [hentered]
        refine Shell.proceed_bare fun running resuming hstarts => ?_
        obtain ⟨context, hrealized, rfl⟩ := hstarts
        refine shell.execute_bare _ _ resuming fun hnot => hcomes ?_
        obtain ⟨hcomposite, hhere, hordered⟩ := hnot
        exact ⟨hcomposite, hhere, hordered, context, hrealized⟩

/-- A unit that is executed alone keeps its persisters, and what they find is all that is stored. -/
theorem Alone.stored (h : outer.Alone shell)
    (hdepth : outer.position.call.depth ≤ shell.config.maxDelegationDepth)
    (hstays : Staying (outer.run shell).events) :
    stores (outer.run shell).events = (if (outer.completed shell).core.hasFailed then []
      else (outer.completed shell).kept) ∧ (¬ (outer.completed shell).core.hasFailed →
        (outer.completed shell).core.persisters = outer.unit.core.persisters) := by
  obtain ⟨-, core, hpersisters, hbare⟩ := h
  obtain ⟨hcompleted, hstored, hinside⟩ := outer.run_supervises shell
  obtain ⟨hstores, hkeeps⟩ := shell.supervise_bare hdepth hbare outer.world
    (hstays.of_infix hinside)
  rw [← hcompleted] at hstores hkeeps
  rw [hstored, hstores]
  refine ⟨?_, fun hunfailed => (hkeeps hunfailed).1.trans hpersisters⟩
  by_cases hfailed : (outer.completed shell).core.hasFailed
  · rw [if_pos hfailed, if_pos hfailed]
  · have hchildren : (outer.completed shell).children = [] := (hkeeps hfailed).2
    rw [if_neg hfailed, if_neg hfailed]
    exact ((outer.completed shell).flatMap_units _).trans (by rw [hchildren]; rfl)

theorem Makes.comes (h : outer.Makes shell inner)
    (hdepth : outer.position.call.depth ≤ shell.config.maxDelegationDepth) :
    ∃ ready steps visit, outer.Comes shell ready steps ∧ .visited visit ∈ steps ∧
      inner = .ofVisit outer.position ready visit := by
  obtain ⟨ready, steps, visit, hruns, hvisit, rfl⟩ := h
  obtain ⟨other, others, hcomes⟩ | ⟨hnone, -⟩ := outer.comes_or_alone hdepth
  · obtain ⟨rfl, rfl⟩ := hruns.unique hcomes.runs
    exact ⟨ready, steps, visit, hcomes, hvisit, rfl⟩
  · exact absurd ⟨ready, steps, visit, hruns, hvisit, rfl⟩ (hnone _)

theorem visited_stores (position : Position) (ready : Work) (visit : Visit σ) :
    stores (Step.events (position.visiting shell ready) (.visited visit)) =
      stores ((ofVisit position ready visit).run shell).events := by
  obtain ⟨-, notes, hevents⟩ := (ofVisit position ready visit).dispatch_run shell
  have hstep : Step.events (position.visiting shell ready) (.visited visit) =
      ((ofVisit position ready visit).run shell).events ++ notes.map .note := hevents
  rw [hstep, stores_append, stores_notes, List.append_nil]

namespace Local

theorem depth_le (h : outer.Local shell) :
    outer.position.call.depth ≤ shell.config.maxDelegationDepth := by
  rw [h.depth]
  exact Nat.zero_le _

/-- The slots of the children are apart from one another, and from those of the unit. -/
theorem slots_apart (h : outer.Local shell) {ready : Work} {steps : List (Step σ)}
    (hruns : outer.Runs shell ready steps) :
    (∀ step ∈ steps, step.child.slots.Nodup) ∧
      steps.Pairwise (fun step other => List.Disjoint step.child.slots other.child.slots) ∧
        ∀ step ∈ steps, List.Disjoint step.child.slots
          (outer.unit.core.persisters.map Persister.slot) := by
  have hnodup := h.slots
  rw [← outer.position.enter_slots hruns.entered, ready.slots_eq,
    outer.position.enter_persisters hruns.entered] at hnodup
  obtain ⟨hchildren, -, hown⟩ := List.nodup_append'.mp hnodup
  have hperm := (Work.sequence?_perm hruns.ordered).flatMap_right Work.slots
  rw [← hperm.nodup_iff, List.flatMap_map] at hchildren
  obtain ⟨hsteps, happart⟩ := List.nodup_flatMap.mp hchildren
  refine ⟨hsteps, happart, fun step hstep slot hslot => hown ?_⟩
  exact List.mem_flatMap.mpr ⟨_, hruns.child_mem hstep, hslot⟩

theorem below (h : outer.Local shell) (hmakes : outer.Makes shell inner) : inner.Local shell := by
  obtain ⟨ready, steps, visit, hcomes, hvisit, rfl⟩ := hmakes.comes h.depth_le
  have hchild := hcomes.runs.child_mem hvisit
  refine ⟨h.depth, fun unit hunit => ?_, (h.slots_apart hcomes.runs).1 _ hvisit, ?_⟩
  · exact outer.position.enter_initial hcomes.runs.entered h.initial unit
      (Work.mem_units.mpr (.inl ⟨_, hchild, hunit⟩))
  · let inner : Occasion σ := .ofVisit outer.position ready visit
    obtain ⟨-, notes, hevents⟩ := inner.dispatch_run shell
    have hinside : (inner.run shell).events <:+:
        Step.events (outer.position.visiting shell ready) (.visited visit) := by
      have hstep : Step.events (outer.position.visiting shell ready) (.visited visit) =
          (inner.run shell).events ++ notes.map .note := hevents
      rw [hstep]
      exact (List.prefix_append _ _).isInfix
    have hflat : Step.events (outer.position.visiting shell ready) (.visited visit) <:+:
        steps.flatMap (Step.events (outer.position.visiting shell ready)) := by
      rw [List.flatMap_def]
      exact List.infix_of_mem_flatten (List.mem_map_of_mem hvisit)
    exact h.stays.of_infix (hinside.trans (hflat.trans hcomes.inside))

/-- Whatever a unit that has not failed and the units below it keep, its dispatch has stored. -/
theorem mem_stores_of_kept (h : outer.Local shell)
    (hunfailed : ¬ (outer.completed shell).core.hasFailed) {pair : String × Json.Value}
    (hpair : pair ∈ (outer.completed shell).units.flatMap Work.kept) :
    pair ∈ stores (outer.run shell).events := by
  obtain ⟨hcompleted, hstored, -⟩ := outer.run_supervises shell
  rw [hstored, shell.supervise_stores h.depth_le, ← hcompleted, if_neg hunfailed]
  exact List.mem_append_right _ hpair

theorem visited (h : outer.Local shell) {ready : Work} {steps : List (Step σ)}
    (hcomes : outer.Comes shell ready steps)
    (hunfailed : ¬ (outer.completed shell).core.hasFailed) {step : Step σ} (hstep : step ∈ steps) :
    ∃ visit, step = .visited visit ∧
      ¬ ((ofVisit outer.position ready visit).completed shell).core.hasFailed := by
  have hnone := hcomes.unfailed hunfailed
  cases step with
  | left child =>
    obtain ⟨context, last, later, -, hcourse⟩ := hcomes.runs.course
    have hdone := hcourse.left_done hnone hstep
    have hchild := hcomes.runs.child_mem hstep
    have hinitial := outer.position.enter_initial hcomes.runs.entered h.initial child
      (Work.mem_units.mpr (.inl ⟨child, hchild, Work.mem_units.mpr (.inr rfl)⟩))
    rw [hdone] at hinitial
    cases hinitial
  | visited visit =>
    refine ⟨visit, rfl, fun hfailed => not_hasFailed_of_failures_nil hnone hstep ?_⟩
    obtain ⟨hleft, -⟩ := (ofVisit outer.position ready visit).dispatch_run shell
    have hended : (outer.position.visiting shell ready visit).value = _ := hleft
    rw [hended, Core.hasFailed, Position.leave_status]
    exact hfailed

/-- A dispatch stores what is stored in the dispatches that it makes, and unless the unit has
failed, what the unit keeps itself. -/
theorem mem_stores (h : outer.Local shell) {pair : String × Json.Value} :
    pair ∈ stores (outer.run shell).events ↔
      (∃ inner, outer.Makes shell inner ∧ pair ∈ stores (inner.run shell).events) ∨
        ¬ (outer.completed shell).core.hasFailed ∧ pair ∈ (outer.completed shell).kept := by
  obtain ⟨ready, steps, hcomes⟩ | halone := outer.comes_or_alone h.depth_le
  · have hbelow : (∃ step ∈ steps, pair ∈ stores
        (step.events (outer.position.visiting shell ready))) ↔
          ∃ inner, outer.Makes shell inner ∧ pair ∈ stores (inner.run shell).events := by
      constructor
      · rintro ⟨step, hstep, hpair⟩
        cases step with
        | left child => simp [Step.events] at hpair
        | visited visit =>
          rw [visited_stores] at hpair
          exact ⟨_, ⟨ready, steps, visit, hcomes.runs, hstep, rfl⟩, hpair⟩
      · rintro ⟨inner, ⟨other, others, visit, hruns, hvisit, rfl⟩, hpair⟩
        obtain ⟨rfl, rfl⟩ := hcomes.runs.unique hruns
        exact ⟨_, hvisit, (visited_stores ..).symm ▸ hpair⟩
    rw [hcomes.stored, List.mem_append, List.mem_flatMap, hbelow]
    by_cases hfailed : (outer.completed shell).core.hasFailed
    · simp [hfailed]
    · rw [if_neg hfailed, Work.flatMap_units, List.mem_append]
      refine ⟨fun hpair => ?_, fun hpair => hpair.imp_right fun hown => .inr hown.2⟩
      obtain hmade | hchild | hown := hpair
      · exact .inl hmade
      · obtain ⟨child, hchild, hpair⟩ := List.mem_flatMap.mp hchild
        rw [hcomes.children] at hchild
        obtain ⟨step, hstep, rfl⟩ := List.mem_map.mp hchild
        obtain ⟨visit, rfl, hunfailed⟩ := h.visited hcomes hfailed hstep
        have hmakes : outer.Makes shell (.ofVisit outer.position ready visit) :=
          ⟨ready, steps, visit, hcomes.runs, hstep, rfl⟩
        obtain ⟨hleft, -⟩ := (ofVisit outer.position ready visit).dispatch_run shell
        have hended : Step.ended (outer.position.visiting shell ready) (.visited visit) = _ := hleft
        rw [hended] at hpair
        exact .inl ⟨_, hmakes, (h.below hmakes).mem_stores_of_kept hunfailed
          (Position.mem_kept_of_leave _ hpair)⟩
      · exact .inr ⟨hfailed, hown⟩
  · rw [(halone.stored h.depth_le h.stays).1]
    have hnone : ¬ ∃ inner, outer.Makes shell inner ∧ pair ∈ stores (inner.run shell).events := by
      rintro ⟨inner, hmakes, -⟩
      exact halone.1 inner hmakes
    by_cases hfailed : (outer.completed shell).core.hasFailed <;> simp [hfailed, hnone]

theorem persisters (h : outer.Local shell)
    (hunfailed : ¬ (outer.completed shell).core.hasFailed) :
    (outer.completed shell).core.persisters = outer.unit.core.persisters := by
  obtain ⟨ready, steps, hcomes⟩ | halone := outer.comes_or_alone h.depth_le
  · exact hcomes.persisters
  · exact (halone.stored h.depth_le h.stays).2 hunfailed

/-- Nothing is stored in a slot that is no slot of the tree. -/
theorem slot_mem (h : outer.Local shell) {slot : String} {value : Json.Value}
    (hpair : (slot, value) ∈ stores (outer.run shell).events) : slot ∈ outer.unit.slots := by
  induction outer using Occasion.induction shell with
  | step outer ih =>
    obtain ⟨inner, hmakes, hinner⟩ | ⟨hunfailed, hown⟩ := h.mem_stores.mp hpair
    · have hslot := ih inner hmakes (h.below hmakes) hinner
      obtain ⟨ready, steps, visit, hruns, hvisit, rfl⟩ := hmakes
      rw [← outer.position.enter_slots hruns.entered, ready.slots_eq]
      exact List.mem_append_left _ (List.mem_flatMap.mpr ⟨_, hruns.child_mem hvisit, hslot⟩)
    · obtain ⟨persister, hpersister, rfl, -⟩ := Work.mem_kept.mp hown
      rw [h.persisters hunfailed] at hpersister
      rw [Work.slots_eq]
      exact List.mem_append_right _ (List.mem_map_of_mem hpersister)

theorem same_of_slot (h : outer.Local shell) (hinner : outer.Makes shell inner)
    (hother : outer.Makes shell other) {slot : String} (hslot : slot ∈ inner.unit.slots)
    (hcommon : slot ∈ other.unit.slots) : inner = other := by
  obtain ⟨ready, steps, visit, hruns, hvisit, rfl⟩ := hinner
  obtain ⟨again, others, twin, htwice, htwin, rfl⟩ := hother
  obtain ⟨rfl, rfl⟩ := hruns.unique htwice
  obtain ⟨-, happart, -⟩ := h.slots_apart hruns
  have hsame : Step.visited visit = .visited twin := by
    by_contra hdiffer
    have hsymmetric : Std.Symm fun step other : Step σ =>
        List.Disjoint step.child.slots other.child.slots := ⟨fun _ _ => List.disjoint_symm⟩
    exact happart.forall hvisit htwin hdiffer hslot hcommon
  rw [Step.visited.inj hsame]

/-- No two values are stored in one slot. -/
theorem single (h : outer.Local shell) {slot : String} {value other : Json.Value}
    (hvalue : (slot, value) ∈ stores (outer.run shell).events)
    (hother : (slot, other) ∈ stores (outer.run shell).events) : value = other := by
  induction outer using Occasion.induction shell with
  | step outer ih =>
    have happart {inner : Occasion σ} {value other : Json.Value} (hmakes : outer.Makes shell inner)
        (hinner : (slot, value) ∈ stores (inner.run shell).events)
        (hunfailed : ¬ (outer.completed shell).core.hasFailed)
        (hown : (slot, other) ∈ (outer.completed shell).kept) : False := by
      have hslot := (h.below hmakes).slot_mem hinner
      obtain ⟨persister, hpersister, rfl, -⟩ := Work.mem_kept.mp hown
      rw [h.persisters hunfailed] at hpersister
      obtain ⟨ready, steps, visit, hruns, hvisit, rfl⟩ := hmakes
      exact (h.slots_apart hruns).2.2 _ hvisit hslot (List.mem_map_of_mem hpersister)
    obtain ⟨inner, hmakes, hinner⟩ | ⟨hunfailed, hown⟩ := h.mem_stores.mp hvalue
    · obtain ⟨twin, hmade, htwin⟩ | ⟨hunfailed, hown⟩ := h.mem_stores.mp hother
      · have hslot := (h.below hmakes).slot_mem hinner
        obtain rfl := h.same_of_slot hmakes hmade hslot ((h.below hmade).slot_mem htwin)
        exact ih inner hmakes (h.below hmakes) hinner htwin
      · exact (happart hmakes hinner hunfailed hown).elim
    · obtain ⟨twin, hmade, htwin⟩ | ⟨-, hlast⟩ := h.mem_stores.mp hother
      · exact (happart hmade htwin hunfailed hown).elim
      · obtain ⟨persister, hpersister, hslot, hfound⟩ := Work.mem_kept.mp hown
        obtain ⟨second, hsecond, hcommon, hlast⟩ := Work.mem_kept.mp hlast
        rw [h.persisters hunfailed] at hpersister hsecond
        have hnodup := h.slots
        rw [Work.slots_eq] at hnodup
        obtain rfl := List.inj_on_of_nodup_map hnodup.of_append_right hpersister hsecond
          (hslot.trans hcommon.symm)
        exact Option.some.inj (hfound.symm.trans hlast)

/-- What is stored in a dispatch is what the units keep that have not failed in the dispatches that
it includes. -/
theorem mem_stores_iff (h : outer.Local shell) {slot : String} {value : Json.Value} :
    (slot, value) ∈ stores (outer.run shell).events ↔
      ∃ inner, outer.Includes shell inner ∧ ¬ (inner.completed shell).core.hasFailed ∧
        ∃ persister ∈ inner.unit.core.persisters, persister.slot = slot ∧
          (inner.completed shell).core.context.get? persister.source = some value := by
  have hown {inner : Occasion σ} (hinner : inner.Local shell)
      (hunfailed : ¬ (inner.completed shell).core.hasFailed) :
      (slot, value) ∈ (inner.completed shell).kept ↔
        ∃ persister ∈ inner.unit.core.persisters, persister.slot = slot ∧
          (inner.completed shell).core.context.get? persister.source = some value := by
    rw [Work.mem_kept, hinner.persisters hunfailed]
  induction outer using Occasion.induction shell with
  | step outer ih =>
    rw [h.mem_stores]
    constructor
    · rintro (⟨inner, hmakes, hpair⟩ | ⟨hunfailed, hkept⟩)
      · obtain ⟨last, hincludes, hlast⟩ := (ih inner hmakes (h.below hmakes)).mp hpair
        exact ⟨last, .head hmakes hincludes, hlast⟩
      · exact ⟨outer, .refl, hunfailed, (hown h hunfailed).mp hkept⟩
    · rintro ⟨last, hincludes, hunfailed, hlast⟩
      obtain rfl | ⟨inner, hmakes, hincludes⟩ := Relation.ReflTransGen.cases_head hincludes
      · exact .inr ⟨hunfailed, (hown h hunfailed).mpr hlast⟩
      · exact .inl ⟨inner, hmakes, (ih inner hmakes (h.below hmakes)).mpr
          ⟨last, hincludes, hunfailed, hlast⟩⟩

end Local
end Occasion

/-- When a tree of initial units, whose persisters have slots of their own, has been executed in
this process, a slot holds a value just if it is that of a persister of a unit that was dispatched
and has not failed, and this is the value that the unit had at the source of the persister when its
own dispatch ended, its scope included. Every other slot is as it was. -/
theorem Shell.persisted_iff (shell : Shell σ) (txn : Option Transaction) (provider : Option String)
    (args : List Argument) (work : Work) (world : World σ)
    (hinitial : ∀ unit ∈ work.units, unit.core.status = .initial)
    (hslots : (work.units.flatMap fun unit => unit.core.persisters.map Persister.slot).Nodup)
    (hstays : ∀ event ∈ (shell.dispatch ⟨0, txn, provider, args⟩ work world).events,
      event.isAway = false) (slot : String) (value : Json.Value) :
    let root : Occasion σ := ⟨.root txn provider args, work, world⟩
    Event.slotValue? slot (shell.dispatch ⟨0, txn, provider, args⟩ work world).events =
        some value ↔
      ∃ inner, root.Includes shell inner ∧ ¬ (inner.completed shell).core.hasFailed ∧
        ∃ persister ∈ inner.unit.core.persisters, persister.slot = slot ∧
          (inner.completed shell).core.context.get? persister.source = some value := by
  intro root
  have hlocal : root.Local shell := ⟨rfl, hinitial, hslots, hstays⟩
  rw [← hlocal.mem_stores_iff]
  exact slotValue?_eq_some_iff fun value other => hlocal.single

def Shell.minutes : Work :=
  let child := fun (id : Nat) (name : String) (operation : Operation) =>
    (Work.ofSignature (.ofNat id) name (.object "write" "Editor" operation)).mapCore
      ({ · with persisters := [⟨name, "text"⟩] })
  ⟨{ Core.fresh (.ofNat 4) "minutes" with persisters := [⟨"minutes", "text"⟩] }, .job []
    [child 1 "draft" fun _ context => (context.put "text" (.ofInt 1), none),
      child 2 "review" fun _ context => (context, some (.exception "no time")),
      child 3 "print" fun _ context => (context, none)]⟩

/-- The slots of the child that writes and of the child that sees it hold the value, although the
job fails; that of the child that fails does not, although it has seen the value as well. -/
theorem Shell.persisted_iff_minutes :
    let root : Occasion Unit := ⟨.root none none [], minutes, ⟨(), .empty 20 1000⟩⟩
    let holds := fun slot value => ∃ inner, root.Includes (finding none) inner ∧
      ¬ (inner.completed (finding none)).core.hasFailed ∧
        ∃ persister ∈ inner.unit.core.persisters, persister.slot = slot ∧
          (inner.completed (finding none)).core.context.get? persister.source = some value
    (holds "draft" (.ofInt 1) ∧ holds "print" (.ofInt 1)) ∧
      (∀ value, ¬ holds "review" value) ∧ ∀ value, ¬ holds "minutes" value := by
  intro root holds
  have hholds (slot : String) (value : Json.Value) :=
    persisted_iff (finding none) none none [] minutes ⟨(), .empty 20 1000⟩ (by decide +kernel)
      (by decide +kernel) (by decide +kernel) slot value
  refine ⟨⟨(hholds _ _).mp rfl, (hholds _ _).mp rfl⟩, fun value h => ?_, fun value h => ?_⟩
  · cases (hholds _ _).mpr h
  · cases (hholds _ _).mpr h

end ServiceShell
