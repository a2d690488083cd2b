import ServiceShell.Proofs.Course
/-!
A job that runs its children in this process, not going on with earlier work: the data that its
children find and leave.
-/
namespace ServiceShell

open Json (Value)

variable {σ : Type}

def merged (run : Visit σ → Outcome σ Work) (entries : OrderedMap Value)
    (visits : List (Visit σ)) : OrderedMap Value :=
  visits.foldl (fun entries visit => entries.overlay (run visit).value.core.context.entries) entries

def worldAfter (run : Visit σ → Outcome σ Work) (world : World σ) (visits : List (Visit σ)) :
    World σ :=
  visits.foldl (fun _ visit => (run visit).world) world

theorem with_merged_nil (run : Visit σ → Outcome σ Work) (context : Context) :
    { context with entries := merged run context.entries [] } = context := by
  cases context
  rfl

def Follows (run : Visit σ → Outcome σ Work) (context : Context) (world : World σ)
    (visits : List (Visit σ)) : Prop :=
  ∀ earlier visit rest, visits = earlier ++ visit :: rest →
    visit.scope = { context with entries := merged run context.entries earlier } ∧
      visit.world = worldAfter run world earlier

theorem Follows.cons {run : Visit σ → Outcome σ Work} {visit : Visit σ} {visits : List (Visit σ)}
    (h : Follows run (visit.scope.overlay (run visit).value.core.context) (run visit).world
      visits) :
    Follows run visit.scope visit.world (visit :: visits) := by
  intro earlier other rest hvisits
  obtain ⟨rfl, hrest⟩ | ⟨later, rfl, hrest⟩ := List.cons_eq_append_iff.mp hvisits
  · obtain ⟨rfl, rfl⟩ := List.cons.inj hrest
    exact ⟨(with_merged_nil run other.scope).symm, rfl⟩
  · exact h later other rest hrest

/-- Where no child stops the others, those that are not left out are visited one after the other. -/
theorem Course.follows {run : Visit σ → Outcome σ Work} {resuming : Bool} {context last : Context}
    {world later : World σ} {steps : List (Step σ)}
    (h : Course run resuming false context world steps last later) :
    let visits := steps.filterMap Step.visit?
    Follows run context world visits ∧
      last = { context with entries := merged run context.entries visits } ∧
      later = worldAfter run world visits := by
  induction h with
  | @nil context world => exact ⟨by simp [Follows], (with_merged_nil run context).symm, rfl⟩
  | left _ _ ih => exact ih
  | passed _ _ _ ih =>
    obtain ⟨hfollows, rfl, rfl⟩ := ih
    exact ⟨hfollows.cons, rfl, rfl⟩
  | stopped _ hstops => cases hstops

theorem Course.leftOut_iff {run : Visit σ → Outcome σ Work} {resuming : Bool}
    {context last : Context} {world later : World σ} {steps : List (Step σ)}
    (h : Course run resuming false context world steps last later) :
    ∀ step ∈ steps, step.child.LeftOut resuming ↔ step.visit? = none := by
  induction h with
  | nil => simp
  | left hskip _ ih => exact List.forall_mem_cons.mpr ⟨iff_of_true hskip rfl, ih⟩
  | @passed visit _ _ _ hreached _ _ ih =>
    exact List.forall_mem_cons.mpr ⟨iff_of_false hreached (Option.some_ne_none visit), ih⟩
  | stopped _ hstops => cases hstops

theorem Course.all_visited {run : Visit σ → Outcome σ Work} {context last : Context}
    {world later : World σ} {steps : List (Step σ)}
    (h : Course run false false context world steps last later) :
    ∃ visits, steps = visits.map .visited ∧ Follows run context world visits ∧
      last = { context with entries := merged run context.entries visits } ∧
      later = worldAfter run world visits := by
  have hvisited : steps = (steps.filterMap Step.visit?).map .visited := by
    rw [List.map_filterMap]
    refine List.filterMap_some.symm.trans (List.filterMap_congr fun step hstep => ?_)
    cases step with
    | visited visit => rfl
    | left child => cases ((h.leftOut_iff _ hstep).mpr rfl).1
  exact ⟨_, hvisited, h.follows⟩

/-- A job has run every child exactly once, in the given order. -/
structure RanInOrder (run : Visit σ → Outcome σ Work) (depth : Nat) (announced : Work)
    (context : Context) (world : World σ) (children : List Work) (visits : List (Visit σ))
    (outcome : Outcome σ Work) : Prop where
  once : visits.map Visit.child = children
  dispatched : ∀ visit ∈ visits, ∃ rest, (run visit).events =
    .dispatched depth (visit.child.mapCore (·.mapContext (·.withScope visit.scope))) :: rest
  follows : Follows run context world visits
  frames : outcome.Frames announced.core.id [.dispatched depth announced]
    (worldAfter run world visits) (visits.flatMap fun visit => (run visit).events)
  children : outcome.value.children = visits.map fun visit => (run visit).value
  entries : outcome.value.core.context.entries = merged run context.entries visits
  unscoped : ∀ child ∈ outcome.value.children, child.core.context.scope = none
  status : outcome.value.core.status =
    if outcome.value.children.any (·.core.hasFailed) then .failed else .done

/-- A job that is run here from a state that is not resumable: every child is dispatched exactly
once, in order, and finds the entries that the children in front of it have ended with. -/
theorem Position.dispatch_local_job (position : Position) (shell : Shell σ) {job : Work}
    {core : Core} {dependencies : List Dependency} {children : List Work} {positions : List Nat}
    {context : Context}
    (hentered : position.enter job = .ok ⟨core, .job dependencies children⟩)
    (hdepth : position.call.depth ≤ shell.config.maxDelegationDepth)
    (hrealized : Depender.realizeAll position.call.args core.dependers core.context =
      (context, none))
    (hfresh : core.status.isResumable = false) (hhere : Shell.runsHere core)
    (horder : Job.order children dependencies = .ok positions) (world : World σ) :
    ∃ visits, RanInOrder (Visit.dispatch shell position.call.inner .job core.name)
      position.call.depth (position.announced job) context world (Job.arrange children positions)
      visits (position.dispatch shell job world) := by
  obtain ⟨steps, run, hsteps, hframes, hvalue⟩ :=
    position.dispatch_job shell hentered hdepth hrealized hhere horder world
  rw [hfresh] at hsteps
  obtain ⟨visits, rfl, hfollows, hlast, hlater⟩ := hsteps.course.all_visited
  have hordered := hsteps.children
  have hended := hsteps.ended
  have hfailed := hsteps.failed
  rw [List.map_map] at hordered hended
  rw [failures_visits] at hfailed
  have hchildren : (position.dispatch shell job world).value.children = visits.map fun visit =>
      (visit.dispatch shell position.call.inner .job core.name).value := by
    rw [hvalue, Position.leave_children]
    exact hended
  refine ⟨visits, hordered, ?_, hfollows, ?_, hchildren, ?_, ?_, ?_⟩
  · intro visit _
    have hinner : position.call.inner.depth ≤ shell.config.maxDelegationDepth := hdepth
    exact visit.dispatch_announced hinner .job core.name
  · obtain ⟨notes, hevents⟩ := hsteps.events
    rw [hevents, hlater, List.flatMap_map] at hframes
    rw [position.announced_id]
    exact hframes.absorb (.notes notes)
  · rw [hvalue, Position.leave_entries]
    exact congrArg Context.entries hlast
  · intro child hchild
    rw [hchildren] at hchild
    obtain ⟨visit, -, rfl⟩ := List.mem_map.mp hchild
    exact visit.dispatch_unscoped shell position.call.inner .job core.name
  · rw [hchildren, hvalue, Position.leave_status, hfailed]
    generalize visits.map _ = endeds
    change (if (endeds.filter (·.core.hasFailed)).isEmpty then State.done else .failed) = _
    have hnone : (endeds.filter (·.core.hasFailed)).isEmpty =
        !endeds.any (·.core.hasFailed) := by
      rw [Bool.eq_iff_iff]
      simp
    rw [hnone]
    cases endeds.any (·.core.hasFailed) <;> rfl

def report : Work :=
  ⟨Core.fresh (.ofNat 3) "report", .job [⟨"fetch", "draft"⟩]
    [.ofSignature (.ofNat 1) "fetch" (.net "get" "Archive"),
      .ofSignature (.ofNat 2) "draft"
        (.object "write" "Editor" fun _ context => (context.put "text" (.ofInt 1), none))]⟩

/-- The child that is declared second is dispatched first, and what it writes is there although the
other child fails. -/
theorem Position.dispatch_local_job_report :
    let outcome := (Position.root none none []).dispatch (Shell.finding none) report
      ⟨(), .empty 20 1000⟩
    (∃ visits : List (Visit Unit), visits.map (·.child.name) = ["draft", "fetch"] ∧
      (outcome.value.core.context.entries =
        merged (Visit.dispatch (Shell.finding none) ⟨0, none, none, []⟩ .job "report") .empty
          visits)) ∧
      outcome.value.core.context.int "text" = 1 ∧ outcome.value.core.status = .failed := by
  intro outcome
  have hentered : (Position.root none none []).enter report = .ok report := rfl
  obtain ⟨visits, hran⟩ := (Position.root none none []).dispatch_local_job (Shell.finding none)
    hentered (Nat.zero_le _) rfl rfl rfl rfl ⟨(), .empty 20 1000⟩
  refine ⟨⟨visits, ?_, hran.entries⟩, by decide +kernel, by decide +kernel⟩
  have honce := congrArg (List.map Work.name) hran.once
  rw [List.map_map] at honce
  exact honce

end ServiceShell
