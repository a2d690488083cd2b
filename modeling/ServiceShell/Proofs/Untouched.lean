import ServiceShell.Proofs.Course
import ServiceShell.Proofs.Tree
/-!
A suspended or failed composite is dispatched again: whatever is done below it, with nothing but
suspended or failed composites around it, is left alone, and the rest is dispatched once more.
-/
namespace ServiceShell
variable {σ : Type}

def Body.sequence? : Body Work → Except Job.OrderError (List Work)
  | .job dependencies children => (Job.order children dependencies).map (Job.arrange children)
  | .block _ children => .ok children
  | _ => .ok []

theorem Work.sequence?_perm {work : Work} {ordered : List Work}
    (h : work.body.sequence? = .ok ordered) : ordered.Perm work.children := by
  obtain ⟨core, body⟩ := work
  cases body with
  | task => cases h; exact .nil
  | model => cases h; exact .nil
  | block declared children => cases h; exact .refl _
  | job dependencies children =>
    unfold Body.sequence? at h
    dsimp only at h
    cases horder : Job.order children dependencies with
    | error e => rw [horder] at h; cases h
    | ok positions =>
      rw [horder] at h
      obtain rfl := Except.ok.inj h
      exact (Job.order_ok horder).perm

/-- Why a composite does not come to its children: its fidelity cannot be selected, a depender stops
it, or its children cannot be ordered. -/
inductive Position.Declines (position : Position) (work : Work) : Prop
  | unprepared {error : DispatchError} : position.enter work = .error error →
    position.Declines work
  | stopped {core : Core} {body : Body Work} {context : Context} {fault : Fault} :
    position.enter work = .ok ⟨core, body⟩ →
      Depender.realizeAll position.call.args core.dependers core.context = (context, some fault) →
      position.Declines work
  | unordered {core : Core} {body : Body Work} {error : Job.OrderError} :
    position.enter work = .ok ⟨core, body⟩ → body.sequence? = .error error →
      position.Declines work

abbrev Position.visiting (position : Position) (shell : Shell σ) (work : Work) :
    Visit σ → Outcome σ Work :=
  Visit.dispatch shell position.call.inner work.kind work.name

/-- A composite that goes on with earlier work comes through its children by the given steps.
Nothing happens but what its dispatches of children bring about. -/
structure Continues (shell : Shell σ) (position : Position) (work : Work) (world : World σ)
    (steps : List (Step σ)) : Prop where
  order : work.body.sequence? = .ok (steps.map Step.child)
  course : ∃ context last, Course (position.visiting shell work) true (work.kind = .block)
    context world steps last (position.dispatch shell work world).world
  dispatched : ∀ visit, .visited visit ∈ steps →
    ∃ rest, (position.visiting shell work visit).events = .dispatched position.call.depth
      (visit.child.mapCore (·.mapContext (·.withScope visit.scope))) :: rest
  children : (position.dispatch shell work world).value.children =
    steps.map (Step.ended (position.visiting shell work))
  frames : (position.dispatch shell work world).Frames work.core.id
    [.dispatched position.call.depth (position.announced work)]
    (position.dispatch shell work world).world
    (steps.flatMap (Step.events (position.visiting shell work)))

structure Declined (shell : Shell σ) (position : Position) (work : Work) (world : World σ) :
    Prop where
  reason : position.Declines work
  body : (position.dispatch shell work world).value.body = work.body
  frames : (position.dispatch shell work world).Frames work.core.id
    [.dispatched position.call.depth (position.announced work)] world []

/-- A composite is refused, or goes on with earlier work; and the suspended or failed composites
among the children that it dispatches are refused or go on likewise. -/
inductive Resumed (shell : Shell σ) : Position → Work → World σ → Prop
  | declined {position : Position} {work : Work} {world : World σ} :
    Declined shell position work world → Resumed shell position work world
  | continued {position : Position} {work : Work} {world : World σ} {steps : List (Step σ)} :
    Continues shell position work world steps →
      (∀ visit, .visited visit ∈ steps → visit.child.isComposite →
        visit.child.core.status.isResumable →
        Resumed shell (.child position.call.inner work.kind work.name visit.scope) visit.child
          visit.world) →
      Resumed shell position work world

/-- A unit is done, and up to the given one there are only suspended or failed composites around
it. -/
inductive Work.Shelters : Work → Work → Prop
  | child {work unit : Work} :
    unit ∈ work.children → unit.core.status = .done → work.Shelters unit
  | deeper {work child unit : Work} :
    child ∈ work.children → child.core.status.isResumable → child.Shelters unit →
      work.Shelters unit

namespace Work.Shelters
variable {work unit : Work}

theorem nonempty (h : work.Shelters unit) : work.children ≠ [] := by
  cases h with
  | child hchild => exact List.ne_nil_of_mem hchild
  | deeper hchild => exact List.ne_nil_of_mem hchild

theorem isComposite (h : work.Shelters unit) : work.isComposite := by
  have hchildren := h.nonempty
  obtain ⟨core, body⟩ := work
  cases body with
  | task => exact absurd rfl hchildren
  | model => exact absurd rfl hchildren
  | job => rfl
  | block => rfl

theorem mem_childUnits (h : work.Shelters unit) : unit ∈ childUnits work.children := by
  induction h with
  | child hchild => exact Work.mem_childUnits.mpr ⟨_, hchild, mem_units.mpr (.inr rfl)⟩
  | deeper hchild _ _ ih =>
    obtain ⟨child, hinner, hunit⟩ := Work.mem_childUnits.mp ih
    exact Work.mem_childUnits.mpr ⟨_, hchild, mem_units.mpr (.inl ⟨child, hinner, hunit⟩)⟩

end Work.Shelters

theorem Course.left_of_done {run : Visit σ → Outcome σ Work} {stops : Bool}
    {context last : Context} {world later : World σ} {steps : List (Step σ)}
    (h : Course run true stops context world steps last later) {step : Step σ}
    (hstep : step ∈ steps) (hdone : step.child.core.status = .done) : step = .left step.child := by
  induction h with
  | nil => cases hstep
  | left _ _ ih =>
    obtain rfl | hrest := List.mem_cons.mp hstep
    · rfl
    · exact ih hrest
  | passed hreached _ _ ih =>
    obtain rfl | hrest := List.mem_cons.mp hstep
    · exact absurd ⟨rfl, hdone⟩ hreached
    · exact ih hrest
  | stopped hreached =>
    obtain rfl | hrest := List.mem_cons.mp hstep
    · exact absurd ⟨rfl, hdone⟩ hreached
    · obtain ⟨child, -, rfl⟩ := List.mem_map.mp hrest
      rfl

theorem Declined.children {shell : Shell σ} {position : Position} {work : Work} {world : World σ}
    (h : Declined shell position work world) :
    (position.dispatch shell work world).value.children = work.children := by
  rw [Work.children, h.body]
  rfl

theorem Continues.step_of_child {shell : Shell σ} {position : Position} {work : Work}
    {world : World σ} {steps : List (Step σ)} (h : Continues shell position work world steps)
    {child : Work} (hchild : child ∈ work.children) : ∃ step ∈ steps, step.child = child := by
  have hordered := (Work.sequence?_perm h.order).mem_iff.mpr hchild
  obtain ⟨step, hstep, hsame⟩ := List.mem_map.mp hordered
  exact ⟨step, hstep, hsame⟩

/-- What a resumed composite shelters is still there. -/
theorem Resumed.keeps {shell : Shell σ} {position : Position} {work : Work} {world : World σ}
    (h : Resumed shell position work world) {unit : Work} (hunit : work.Shelters unit) :
    unit ∈ Work.childUnits (position.dispatch shell work world).value.children := by
  induction h generalizing unit with
  | declined hdeclined =>
    rw [hdeclined.children]
    exact hunit.mem_childUnits
  | @continued position work world steps hcontinues _ ih =>
    rw [hcontinues.children, Work.mem_childUnits]
    cases hunit with
    | child hchild hdone =>
      obtain ⟨step, hstep, rfl⟩ := hcontinues.step_of_child hchild
      obtain ⟨context, last, hcourse⟩ := hcontinues.course
      rw [hcourse.left_of_done hstep hdone] at hstep
      exact ⟨_, List.mem_map_of_mem hstep, Work.mem_units.mpr (.inr rfl)⟩
    | deeper hchild hresumable hunit =>
      obtain ⟨step, hstep, rfl⟩ := hcontinues.step_of_child hchild
      refine ⟨_, List.mem_map_of_mem hstep, ?_⟩
      rw [Work.units_eq]
      refine List.mem_append_left _ ?_
      cases step with
      | left child => exact hunit.mem_childUnits
      | visited visit => exact ih visit hstep hunit.isComposite hresumable hunit

def Position.Readies (position : Position) (work : Work) : Prop :=
  ∀ entered, position.enter work = .ok entered → entered.body = work.body ∧
    entered.name = work.name ∧ entered.core.status = work.core.status ∧
    Shell.runsHere entered.core

theorem Position.child_readies (call : Call) (kind : Kind) (parent : String) (scope : Context)
    {work : Work} (hhere : Shell.runsHere work.core) :
    (Position.child call kind parent scope).Readies work := by
  intro entered hentered
  obtain rfl := Except.ok.inj hentered
  exact ⟨rfl, rfl, rfl, hhere⟩

theorem Position.root_readies (txn : Option Transaction) (provider : Option String)
    {args : List Argument} {work : Work} (hstate : work.core.control.state ≠ .initial)
    (hhere : ∀ ready, Shell.prepare args work = .ok ready → Shell.runsHere ready.core) :
    (Position.root txn provider args).Readies work := by
  intro entered hentered
  have hready := hhere entered hentered
  obtain ⟨fidelities, rfl⟩ := Shell.prepare_unreset hstate hentered
  exact ⟨rfl, rfl, rfl, hready⟩

theorem Body.sequence?_error {body : Body Work} {error : Job.OrderError}
    (h : body.sequence? = .error error) :
    ∃ dependencies children, body = .job dependencies children ∧
      Job.order children dependencies = .error error := by
  cases body with
  | task => cases h
  | model => cases h
  | block => cases h
  | job dependencies children =>
    unfold sequence? at h
    dsimp only at h
    cases horder : Job.order children dependencies with
    | ok positions => rw [horder] at h; cases h
    | error e =>
      rw [horder] at h
      obtain rfl := Except.error.inj h
      exact ⟨dependencies, children, rfl, horder⟩

theorem Shell.execute_unordered (shell : Shell σ) (call : Call) (core : Core) (resuming : Bool)
    {dependencies : List Dependency} {children : List Work} {error : Job.OrderError}
    (horder : Job.order children dependencies = .error error) (world : World σ) :
    let attempt := shell.execute call core resuming (.job dependencies children) world
    attempt.Frames core.id [] world [] ∧ attempt.value =
      ⟨⟨core, .job dependencies children⟩, .error (error.toDispatchError core.name)⟩ := by
  rw [(Shell.Way.unordered horder).execute_eq]
  cases error with
  | invalid issues =>
    exact ⟨⟨rfl, [], (Job.summary core.name issues).map .note, List.append_nil _, .nil, .notes _⟩,
      rfl⟩
  | cyclic names => exact ⟨⟨rfl, [], [], rfl, .nil, .nil⟩, rfl⟩

namespace Position
variable (position : Position) (shell : Shell σ) {work : Work}

theorem dispatch_unordered_value {core : Core} {dependencies : List Dependency}
    {children : List Work} {error : Job.OrderError} {context : Context}
    (hentered : position.enter work = .ok ⟨core, .job dependencies children⟩)
    (hdepth : position.call.depth ≤ shell.config.maxDelegationDepth)
    (hrealized : Depender.realizeAll position.call.args core.dependers core.context =
      (context, none))
    (horder : Job.order children dependencies = .error error) (world : World σ) :
    (position.dispatch shell work world).value = position.leave
      (Attempt.mk ⟨Core.setStatus { core with context } .running, .job dependencies children⟩
        (.error (error.toDispatchError core.name))).ended.work := by
  obtain ⟨-, hvalue⟩ := position.dispatch_executed shell hentered hdepth hrealized world
  obtain ⟨-, hunordered⟩ := shell.execute_unordered position.call
    (Core.setStatus { core with context } .running) core.status.isResumable horder world
  rw [hunordered] at hvalue
  exact hvalue

theorem dispatch_unordered {core : Core} {dependencies : List Dependency} {children : List Work}
    {error : Job.OrderError} {context : Context}
    (hentered : position.enter work = .ok ⟨core, .job dependencies children⟩)
    (hdepth : position.call.depth ≤ shell.config.maxDelegationDepth)
    (hrealized : Depender.realizeAll position.call.args core.dependers core.context =
      (context, none))
    (horder : Job.order children dependencies = .error error) (world : World σ) :
    (position.dispatch shell work world).Frames work.core.id
        [.dispatched position.call.depth (position.announced work)] world [] ∧
      (position.dispatch shell work world).value.body = .job dependencies children := by
  obtain ⟨hframes, -⟩ := position.dispatch_executed shell hentered hdepth hrealized world
  obtain ⟨hexecuted, -⟩ := shell.execute_unordered position.call
    (Core.setStatus { core with context } .running) core.status.isResumable horder world
  refine ⟨hframes.trans ?_, ?_⟩
  · rw [← position.enter_id hentered]
    exact hexecuted
  · rw [position.dispatch_unordered_value shell hentered hdepth hrealized horder, leave_body]
    rfl

/-- What stops a composite leaves nothing but a frame. -/
theorem dispatch_declined (hdeclines : position.Declines work) (hreadies : position.Readies work)
    (hdepth : position.call.depth ≤ shell.config.maxDelegationDepth) (world : World σ) :
    Declined shell position work world := by
  have hgiven {core : Core} {body : Body Work}
      (hentered : position.enter work = .ok ⟨core, body⟩) : body = work.body :=
    (hreadies _ hentered).1
  cases hdeclines with
  | unprepared hentered =>
    obtain ⟨hframes, hbody⟩ := position.dispatch_unprepared shell hentered world
    exact ⟨.unprepared hentered, hbody, hframes⟩
  | stopped hentered hrealized =>
    obtain ⟨hframes, hbody⟩ := position.dispatch_stopped shell hentered hdepth hrealized world
    exact ⟨.stopped hentered hrealized, hbody.trans (hgiven hentered), hframes⟩
  | @unordered core body error hentered hsequence =>
    obtain ⟨dependencies, children, rfl, horder⟩ := Body.sequence?_error hsequence
    rcases hrealized : Depender.realizeAll position.call.args core.dependers core.context with
      ⟨context, _ | fault⟩
    · obtain ⟨hframes, hbody⟩ :=
        position.dispatch_unordered shell hentered hdepth hrealized horder world
      exact ⟨.unordered hentered hsequence, hbody.trans (hgiven hentered), hframes⟩
    · obtain ⟨hframes, hbody⟩ := position.dispatch_stopped shell hentered hdepth hrealized world
      exact ⟨.stopped hentered hrealized, hbody.trans (hgiven hentered), hframes⟩

/-- A composite that comes to its children goes on with earlier work. -/
theorem dispatch_continues {core : Core} {body : Body Work} {ordered : List Work}
    {context : Context} (hentered : position.enter work = .ok ⟨core, body⟩)
    (hreadies : position.Readies work) (hcomposite : work.isComposite)
    (hresumable : work.core.status.isResumable)
    (hdepth : position.call.depth ≤ shell.config.maxDelegationDepth)
    (hrealized : Depender.realizeAll position.call.args core.dependers core.context =
      (context, none))
    (horder : body.sequence? = .ok ordered) (world : World σ) :
    ∃ steps, Continues shell position work world steps := by
  obtain ⟨hbody, hname, hstatus, hhere⟩ := hreadies _ hentered
  obtain ⟨own, body⟩ := work
  dsimp only at hbody hstatus hhere hresumable
  have hsame : core.name = own.name := hname
  subst hbody
  rw [← hstatus] at hresumable
  have hthrough : ∃ steps run, Through (position.visiting shell ⟨own, body⟩) true
        (Work.kind ⟨own, body⟩ = .block) context world ordered steps run ∧
      (position.dispatch shell ⟨own, body⟩ world).Frames own.id
        [.dispatched position.call.depth (position.announced ⟨own, body⟩)] run.world run.events ∧
      (position.dispatch shell ⟨own, body⟩ world).value.children = run.value.children := by
    cases body with
    | task => cases hcomposite
    | model => cases hcomposite
    | job dependencies children =>
      cases hpositions : Job.order children dependencies with
      | error e =>
        rw [Body.sequence?, hpositions] at horder
        cases horder
      | ok positions =>
        rw [Body.sequence?, hpositions] at horder
        obtain rfl := Except.ok.inj horder
        obtain ⟨steps, run, hthrough, hframes, hvalue⟩ :=
          position.dispatch_job shell hentered hdepth hrealized hhere hpositions world
        rw [hresumable, hsame] at hthrough
        refine ⟨steps, run, hthrough, hframes, ?_⟩
        rw [hvalue, leave_children]
        rfl
    | block declared children =>
      obtain rfl := Except.ok.inj horder
      obtain ⟨steps, run, hthrough, hframes, hvalue⟩ :=
        position.dispatch_block shell hentered hdepth hrealized hhere world
      rw [hresumable, hsame] at hthrough
      refine ⟨steps, run, hthrough, hframes, ?_⟩
      rw [hvalue, leave_children]
      rfl
  obtain ⟨steps, run, hsteps, hframes, hvalue⟩ := hthrough
  obtain ⟨notes, hevents⟩ := hsteps.events
  rw [hevents] at hframes
  refine ⟨steps, ?_, ⟨context, run.value.context, ?_⟩, ?_, ?_, ?_⟩
  · rw [hsteps.children]
    exact horder
  · rw [hframes.world]
    exact hsteps.course
  · intro visit _
    have hinner : position.call.inner.depth ≤ shell.config.maxDelegationDepth := hdepth
    exact visit.dispatch_announced hinner _ _
  · rw [hvalue, hsteps.ended]
  · rw [hframes.world]
    exact hframes.absorb (.notes notes)

end Position

theorem Position.resumes (shell : Shell σ) (work : Work) (position : Position)
    (hdepth : position.call.depth ≤ shell.config.maxDelegationDepth)
    (hreadies : position.Readies work) (hcomposite : work.isComposite)
    (hresumable : work.core.status.isResumable)
    (hbelow : ∀ unit ∈ Work.childUnits work.children,
      unit.isComposite → Shell.runsHere unit.core) (world : World σ) :
    Resumed shell position work world := by
  induction work using Work.induction generalizing position world with
  | step work ih =>
    cases hentered : position.enter work with
    | error e =>
      exact .declined
        (position.dispatch_declined shell (.unprepared hentered) hreadies hdepth world)
    | ok entered =>
      obtain ⟨core, body⟩ := entered
      rcases hrealized : Depender.realizeAll position.call.args core.dependers core.context with
        ⟨context, _ | fault⟩
      · cases hsequence : body.sequence? with
        | error e =>
          exact .declined (position.dispatch_declined shell (.unordered hentered hsequence)
            hreadies hdepth world)
        | ok ordered =>
          obtain ⟨steps, hcontinues⟩ := position.dispatch_continues shell hentered hreadies
            hcomposite hresumable hdepth hrealized hsequence world
          refine .continued hcontinues fun visit hvisit hcomposite hresumable => ?_
          have hchild : visit.child ∈ work.children :=
            (Work.sequence?_perm hcontinues.order).mem_iff.mp
              (List.mem_map.mpr ⟨.visited visit, hvisit, rfl⟩)
          have hunits {unit : Work} (hunit : unit ∈ visit.child.units) :
              unit ∈ Work.childUnits work.children :=
            Work.mem_childUnits.mpr ⟨visit.child, hchild, hunit⟩
          have hhere := hbelow visit.child (hunits (Work.mem_units.mpr (.inr rfl))) hcomposite
          refine ih visit.child hchild (.child position.call.inner work.kind work.name visit.scope)
            hdepth (child_readies _ _ _ _ hhere) hcomposite hresumable
            (fun unit hunit => hbelow unit (hunits ?_)) visit.world
          rw [Work.units_eq]
          exact List.mem_append_left _ hunit
      · exact .declined (position.dispatch_declined shell (.stopped hentered hrealized) hreadies
          hdepth world)

/-- A suspended or failed root goes on with its earlier work: nothing happens but that children
which are not done are dispatched, all of them by a job and those up to the first that fails by a
block; and what is done below suspended and failed composites is kept as it is. -/
theorem Position.dispatch_resumed (shell : Shell σ) (txn : Option Transaction)
    (provider : Option String) (args : List Argument) {work : Work}
    (hstate : work.core.control.state = work.core.status) (hcomposite : work.isComposite)
    (hresumable : work.core.status.isResumable)
    (hhere : ∀ ready, Shell.prepare args work = .ok ready → Shell.runsHere ready.core)
    (hbelow : ∀ unit ∈ Work.childUnits work.children,
      unit.isComposite → Shell.runsHere unit.core) (world : World σ) :
    let outcome := (Position.root txn provider args).dispatch shell work world
    Resumed shell (.root txn provider args) work world ∧
      ∀ unit, work.Shelters unit → unit ∈ Work.childUnits outcome.value.children := by
  have hinitial : work.core.control.state ≠ .initial := by
    intro h
    rw [← hstate, h] at hresumable
    cases hresumable
  have hresumed : Resumed shell (.root txn provider args) work world :=
    Position.resumes shell work _ (Nat.zero_le _) (root_readies txn provider hinitial hhere)
      hcomposite hresumable hbelow world
  exact ⟨hresumed, fun _ hunit => hresumed.keeps hunit⟩

def writer (id : Nat) (name : String) (status : State) : Work :=
  (Work.ofSignature (.ofNat id) name (.object name "Writer" fun path context =>
    (context.put path (.ofInt 1), none))).mapCore (·.setStatus status)

def broken : Work :=
  ⟨(Core.fresh (.ofNat 1) "outer").setStatus .failed, .job []
    [writer 2 "a" .done,
      ⟨(Core.fresh (.ofNat 3) "inner").setStatus .failed, .block (.named "inner")
        [writer 4 "b" .done, writer 5 "c" .failed]⟩]⟩

/-- Only the task that failed writes its number. -/
theorem Position.dispatch_resumed_broken :
    let outcome := (Position.root none none []).dispatch (Shell.finding none) broken
      ⟨(), .empty 20 1000⟩
    writer 4 "b" .done ∈ Work.childUnits outcome.value.children ∧
      ["a", "b", "c"].map outcome.value.core.context.int = [0, 0, 1] ∧
      outcome.value.core.status = .done := by
  intro outcome
  have hstate : broken.core.control.state = broken.core.status := rfl
  have hhere (ready : Work) (hprepare : Shell.prepare [] broken = .ok ready) :
      Shell.runsHere ready.core := by
    obtain rfl : broken = ready := Except.ok.inj hprepare
    rfl
  obtain ⟨-, hkept⟩ := Position.dispatch_resumed (Shell.finding none) none none [] hstate rfl rfl
    hhere (by decide) ⟨(), .empty 20 1000⟩
  refine ⟨hkept _ ?_, by decide +kernel, by decide +kernel⟩
  exact .deeper (List.mem_cons_of_mem _ (List.mem_singleton.mpr rfl)) rfl
    (.child List.mem_cons_self rfl)

end ServiceShell
