import ServiceShell.Proofs.Status
import ServiceShell.Proofs.Untouched
/-!
What a composite that is done may say about its children: none of them runs or has failed, and one
that is not done is as a provider answered it.
-/
namespace ServiceShell
variable {σ : Type}

theorem State.ofFault_ne_done (fault : Fault) : State.ofFault fault ≠ .done := by
  unfold State.ofFault
  split <;> simp

theorem State.done_or_open {status : State} (hrunning : status ≠ .running)
    (h : ¬ status.isFailure) : status = .done ∨ status = .initial ∨ status = .suspended := by
  cases status <;> simp_all [isFailure]

theorem Core.not_hasFailed_of_finish {core : Core} (h : core.finish.status = .done) :
    ¬ core.hasFailed := by
  intro hfailed
  have hstatus := (Core.finish_of_failure hfailed).symm.trans h
  exact Core.not_hasFailed_of_done hstatus hfailed

namespace Shell
variable (shell : Shell σ)

/-- A block takes the state of the child that stopped it, so one that has not failed was not
stopped. -/
theorem unfailed_of_ranBlock {core : Core} {run : Children}
    (hfailures : ∀ child ∈ run.failed, child.core.hasFailed)
    (hunfailed : ¬ (ranBlock core run).hasFailed) : run.failed = [] := by
  unfold ranBlock at hunfailed
  cases hfailed : run.failed with
  | nil => rfl
  | cons child rest =>
    rw [hfailed] at hunfailed
    exact absurd (hfailures child (hfailed ▸ List.mem_cons_self)) hunfailed

theorem sequence?_of_execute_ok {call : Call} {core : Core} {resuming : Bool} {body : Body Work}
    {world : World σ} {route : Route}
    (h : (shell.execute call core resuming body world).value.result = .ok route) :
    ∃ ordered, body.sequence? = .ok ordered := by
  cases hsequence : body.sequence? with
  | ok ordered => exact ⟨ordered, rfl⟩
  | error error =>
    obtain ⟨dependencies, children, rfl, horder⟩ := Body.sequence?_error hsequence
    obtain ⟨-, hvalue⟩ := shell.execute_unordered call core resuming horder world
    rw [hvalue] at h
    cases h

end Shell

namespace Position
variable (position : Position) (shell : Shell σ) {work : Work}

theorem dispatches (work : Work) :
    ∃ run, shell.Dispatches position.call (position.announced work) (position.enter work) run ∧
      ∀ world, (position.dispatch shell work world).value = position.leave (run world).value.work ∧
        (run world).events <+: (position.dispatch shell work world).events := by
  cases position with
  | root txn provider args =>
    refine ⟨_, .root ⟨0, txn, provider, args⟩ work, fun world => ?_⟩
    simp only [dispatch, Run.map_apply]
    exact ⟨rfl, List.prefix_rfl⟩
  | child call kind parent scope =>
    refine ⟨_, .child call work (work.core.mapContext (·.withScope scope)), fun world => ⟨?_, ?_⟩⟩
    · have hvalue := (shell.runner call work).runIn_value kind parent scope world
      rw [shell.runner_child] at hvalue
      exact hvalue
    · simp only [dispatch, Shell.Runner.runIn, Run.bind_apply, shell.runner_child]
      exact List.prefix_append _ _

/-- A composite that is done came past its dependers to its children, which can be ordered. -/
theorem executed_of_done {core : Core} {body : Body Work} {world : World σ}
    (hentered : position.enter work = .ok ⟨core, body⟩)
    (hdone : (position.dispatch shell work world).value.core.status = .done) :
    position.call.depth ≤ shell.config.maxDelegationDepth ∧ ∃ context ordered,
      Depender.realizeAll position.call.args core.dependers core.context = (context, none) ∧
        body.sequence? = .ok ordered := by
  obtain ⟨run, hdispatches, hrun⟩ := position.dispatches shell work
  rw [hentered] at hdispatches
  rw [(hrun world).1, leave_status] at hdone
  obtain ⟨failed, fault, hfailed⟩ | ⟨ready, route, hready, hdepth, hexecuted⟩ :=
    hdispatches.failed_or_executed world
  · rw [hfailed] at hdone
    exact absurd hdone (State.ofFault_ne_done fault)
  · obtain rfl := Except.ok.inj hready
    obtain ⟨running, ⟨context, hrealized, -⟩, hexecute⟩ :=
      shell.executeReady_ok (congrArg Attempt.result hexecuted)
    obtain ⟨ordered, hordered⟩ := shell.sequence?_of_execute_ok hexecute
    exact ⟨hdepth, context, ordered, hrealized, hordered⟩

/-- A composite that is run here comes through its children, and is not done if one has failed. -/
theorem dispatch_composite {core : Core} {body : Body Work} {context : Context}
    {ordered : List Work} (hentered : position.enter work = .ok ⟨core, body⟩)
    (hcomposite : Work.isComposite ⟨core, body⟩)
    (hdepth : position.call.depth ≤ shell.config.maxDelegationDepth)
    (hrealized : Depender.realizeAll position.call.args core.dependers core.context =
      (context, none))
    (hhere : Shell.runsHere core) (hordered : body.sequence? = .ok ordered) (world : World σ) :
    let visiting := Visit.dispatch shell position.call.inner (Work.kind ⟨core, body⟩) core.name
    ∃ steps run, Through visiting core.status.isResumable (Work.kind ⟨core, body⟩ = .block) context
        world ordered steps run ∧
      (position.dispatch shell work world).Frames work.core.id
        [.dispatched position.call.depth (position.announced work)] run.world run.events ∧
      (position.dispatch shell work world).value.children = run.value.children ∧
      ((position.dispatch shell work world).value.core.status = .done →
        failures visiting steps = []) := by
  cases body with
  | task => cases hcomposite
  | model => cases hcomposite
  | job dependencies children =>
    cases hpositions : Job.order children dependencies with
    | error e =>
      rw [Body.sequence?, hpositions] at hordered
      cases hordered
    | ok positions =>
      rw [Body.sequence?, hpositions] at hordered
      obtain rfl := Except.ok.inj hordered
      obtain ⟨steps, run, hthrough, hframes, hvalue⟩ :=
        position.dispatch_job shell hentered hdepth hrealized hhere hpositions world
      refine ⟨steps, run, hthrough, hframes, ?_, fun hdone => ?_⟩
      · rw [hvalue, leave_children]
        rfl
      · rw [hvalue, leave_status] at hdone
        refine hthrough.failed.symm.trans ?_
        by_contra hfailed
        simp [Core.setStatus, hfailed] at hdone
  | block declared children =>
    obtain rfl := Except.ok.inj hordered
    obtain ⟨steps, run, hthrough, hframes, hvalue⟩ :=
      position.dispatch_block shell hentered hdepth hrealized hhere world
    refine ⟨steps, run, hthrough, hframes, ?_, fun hdone => ?_⟩
    · rw [hvalue, leave_children]
      rfl
    · rw [hvalue, leave_status] at hdone
      have hfailures : ∀ child ∈ run.value.failed, child.core.hasFailed := fun child hchild => by
        rw [hthrough.failed] at hchild
        exact (List.mem_filter.mp hchild).2
      have hunfailed := Core.not_hasFailed_of_finish hdone
      exact hthrough.failed.symm.trans (Shell.unfailed_of_ranBlock hfailures hunfailed)

end Position

namespace Course
variable {run : Visit σ → Outcome σ Work} {resuming stops : Bool} {context last : Context}
  {world later : World σ} {steps : List (Step σ)}

theorem left_done (h : Course run resuming stops context world steps last later)
    (hunfailed : failures run steps = []) {child : Work} (hleft : .left child ∈ steps) :
    child.core.status = .done := by
  induction h with
  | nil => cases hleft
  | left hdone _ ih =>
    obtain heq | hrest := List.mem_cons.mp hleft
    · obtain rfl := Step.left.inj heq
      exact hdone.2
    · exact ih hunfailed hrest
  | passed _ _ _ ih =>
    rw [failures_visited] at hunfailed
    refine ih ?_ ((List.mem_cons.mp hleft).resolve_left nofun)
    split at hunfailed
    · cases hunfailed
    · exact hunfailed
  | stopped _ _ hfails =>
    rw [failures_visited, if_pos hfails] at hunfailed
    cases hunfailed

end Course

theorem not_hasFailed_of_failures_nil {run : Visit σ → Outcome σ Work} {steps : List (Step σ)}
    (h : failures run steps = []) {visit : Visit σ} (hvisit : .visited visit ∈ steps) :
    ¬ (run visit).value.core.hasFailed :=
  List.filter_eq_nil_iff.mp h _ (List.mem_map_of_mem (List.mem_filterMap.mpr ⟨_, hvisit, rfl⟩))

theorem Through.events_infix {run : Visit σ → Outcome σ Work} {resuming stops : Bool}
    {context : Context} {world : World σ} {children : List Work} {steps : List (Step σ)}
    {outcome : Outcome σ Shell.Children}
    (h : Through run resuming stops context world children steps outcome) {visit : Visit σ}
    (hvisit : .visited visit ∈ steps) : (run visit).events <:+: outcome.events := by
  obtain ⟨notes, hevents⟩ := h.events
  have hflat : (run visit).events <:+: steps.flatMap (Step.events run) := by
    rw [List.flatMap_def]
    exact List.infix_of_mem_flatten (List.mem_map.mpr ⟨_, hvisit, rfl⟩)
  rw [hevents]
  exact hflat.trans (List.prefix_append _ _).isInfix

/-- A child that has been dispatched and has not failed is done, or as it was answered. -/
theorem Visit.done_or_answered (shell : Shell σ) (call : Call) (kind : Kind) (parent : String)
    (visit : Visit σ) (hunfailed : ¬ (visit.dispatch shell call kind parent).value.core.hasFailed) :
    let ended := visit.dispatch shell call kind parent
    ended.value.core.status = .done ∨
      (ended.value.core.status = .initial ∨ ended.value.core.status = .suspended) ∧
        ∃ events answer, events <:+: ended.events ∧ Answered visit.child.core.id events answer ∧
          ended.value = answer.mapCore (·.mapContext .clearScope) := by
  intro ended
  let position := Position.child call kind parent visit.scope
  obtain ⟨run, hdispatches, hrun⟩ := position.dispatches shell visit.child
  obtain ⟨hvalue, hevents⟩ := hrun visit.world
  have hstatus : ended.value.core.status = (run visit.world).value.work.core.status :=
    (congrArg (·.core.status) hvalue).trans (position.leave_status _)
  have hrunning : ended.value.core.status ≠ .running :=
    hstatus ▸ hdispatches.not_left_running visit.world
  obtain hdone | hopen := State.done_or_open hrunning hunfailed
  · exact .inl hdone
  · have hanswered := (hdispatches.rests_or_answered visit.world).resolve_left fun hatRest => by
      have hfinal := hstatus ▸ hatRest.status
      obtain hinitial | hsuspended := hopen
      · rw [hinitial] at hfinal
        exact absurd hfinal (by decide)
      · rw [hsuspended] at hfinal
        exact absurd hfinal (by decide)
    obtain ⟨-, -, hanswered⟩ := hanswered
    rw [position.announced_id] at hanswered
    exact .inr ⟨hopen, _, _, hevents.isInfix, hanswered, hvalue⟩

namespace Position
variable (position : Position) (shell : Shell σ) {work : Work}

/-- No child of a composite that is done runs or has failed; where it is not done, a provider has
answered to it with a unit that it left initial or suspended. -/
theorem dispatch_done_children {core : Core} {body : Body Work}
    (hentered : position.enter work = .ok ⟨core, body⟩)
    (hcomposite : Work.isComposite ⟨core, body⟩) (hhere : Shell.runsHere core) (world : World σ)
    (hdone : (position.dispatch shell work world).value.core.status = .done) :
    let ended := position.dispatch shell work world
    ∀ child ∈ ended.value.children, child.core.status = .done ∨
      (child.core.status = .initial ∨ child.core.status = .suspended) ∧
        ∃ original ∈ Work.children ⟨core, body⟩, ∃ events answer, events <:+: ended.events ∧
          Answered original.core.id events answer ∧
            child = answer.mapCore (·.mapContext .clearScope) := by
  intro ended child hchild
  obtain ⟨hdepth, context, ordered, hrealized, hordered⟩ :=
    position.executed_of_done shell hentered hdone
  obtain ⟨steps, run, hthrough, hframes, hchildren, hfailures⟩ :=
    position.dispatch_composite shell hentered hcomposite hdepth hrealized hhere hordered world
  have hunfailed := hfailures hdone
  rw [hchildren, hthrough.ended] at hchild
  obtain ⟨step, hstep, rfl⟩ := List.mem_map.mp hchild
  cases step with
  | left child => exact .inl (hthrough.course.left_done hunfailed hstep)
  | visited visit =>
    have horiginal : visit.child ∈ Work.children ⟨core, body⟩ := by
      have hperm : ordered.Perm (Work.children ⟨core, body⟩) := Work.sequence?_perm hordered
      rw [← hperm.mem_iff, ← hthrough.children]
      exact List.mem_map_of_mem hstep
    have hinside := (hthrough.events_infix hstep).trans hframes.inside
    obtain hvisited | ⟨hstatus, events, answer, hevents, hanswered, hvalue⟩ :=
      visit.done_or_answered shell position.call.inner _ core.name
        (not_hasFailed_of_failures_nil hunfailed hstep)
    · exact .inl hvisited
    · exact .inr ⟨hstatus, visit.child, horiginal, events, answer, hevents.trans hinside, hanswered,
        hvalue⟩

end Position

namespace Shell

def ordering : Work := ⟨Core.fresh (.ofNat 1) "order", .job [] [supplied]⟩

/-- The supply that its provider has suspended. -/
theorem dispatch_done_children_suspended :
    let ended := (Position.root none none []).dispatch (answering depot suspended) ordering
      ⟨(), .empty 20 1000⟩
    ended.value.core.status = .done ∧ ∀ child ∈ ended.value.children,
      child.core.status = .suspended ∧ ∃ events answer, events <:+: ended.events ∧
        Answered (.ofNat 2) events answer ∧ child = answer.mapCore (·.mapContext .clearScope) := by
  have hentered : (Position.root none none []).enter ordering = .ok _ := rfl
  have hchildren := Position.dispatch_done_children _ (answering depot suspended) hentered rfl rfl
    ⟨(), .empty 20 1000⟩ rfl
  refine ⟨rfl, fun child hchild => ?_⟩
  have hstatus : child.core.status = .suspended := by
    rw [List.mem_singleton.mp hchild]
    rfl
  obtain hdone | ⟨-, original, horiginal, events, answer, hinside, hanswered, hvalue⟩ :=
    hchildren child hchild
  · rw [hstatus] at hdone
    cases hdone
  · obtain rfl := List.mem_singleton.mp horiginal
    exact ⟨hstatus, events, answer, hinside, hanswered, hvalue⟩

/-- A job is done over a child that is not, and is not resumed when it is dispatched again. -/
theorem done_over_suspended :
    let ended := (Position.root none none []).dispatch (answering depot suspended) ordering
      ⟨(), .empty 20 1000⟩
    ended.value.core.status = .done ∧ ¬ ended.value.core.status.isResumable ∧
      ended.value.children.map (·.core.status) = [.suspended] :=
  ⟨rfl, by decide, rfl⟩

end Shell
end ServiceShell
