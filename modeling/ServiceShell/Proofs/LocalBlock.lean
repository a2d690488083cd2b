import ServiceShell.Proofs.LocalJob
import ServiceShell.Proofs.Sequence
import ServiceShell.Proofs.Status
/-!
A block that runs its children in this process, not going on with earlier work: how far it comes,
and the data that its children find and leave.
-/
namespace ServiceShell
variable {σ : Type}

/-- Where no child is left out, children are visited one after the other up to the first that
fails. -/
theorem Course.until_failure {run : Visit σ → Outcome σ Work} {context last : Context}
    {world later : World σ} {steps : List (Step σ)}
    (h : Course run false true context world steps last later) :
    ∃ visits unreached, steps = visits.map .visited ++ unreached.map .left ∧
      Follows run context world visits ∧
      last = { context with entries := merged run context.entries visits } ∧
      later = worldAfter run world visits ∧
      UpToFirst (fun visit => (run visit).value.core.hasFailed) visits unreached := by
  induction h with
  | @nil context world =>
    exact ⟨[], [], rfl, by simp [Follows], (with_merged_nil run context).symm, rfl, .nil⟩
  -- nothing is left out by a block that does not go on with earlier work
  | left hskip => cases hskip.1
  | @passed visit _ _ _ _ hgoes _ ih =>
    obtain ⟨visits, unreached, rfl, hfollows, rfl, rfl, hstop⟩ := ih
    exact ⟨visit :: visits, unreached, rfl, hfollows.cons, rfl, rfl, hstop.passed (hgoes rfl)⟩
  | @stopped visit unreached _ _ hfails =>
    have hfollows : Follows run (visit.scope.overlay (run visit).value.core.context)
        (run visit).world [] := by simp [Follows]
    refine ⟨[visit], unreached, rfl, hfollows.cons, rfl, rfl, .stopped ?_ unreached⟩
    exact hfails

/-- A block has run its children in the declared order up to the first that fails, if one does, and
has left those behind it as they were. -/
structure RanUntilFailure (run : Visit σ → Outcome σ Work) (depth : Nat) (announced : Work)
    (context : Context) (world : World σ) (children : List Work) (visits : List (Visit σ))
    (unreached : List Work) (outcome : Outcome σ Work) : Prop where
  once : visits.map Visit.child ++ unreached = children
  dispatched : ∀ visit ∈ visits, ∃ rest, (run visit).events =
    .dispatched depth (visit.child.mapCore (·.mapContext (·.withScope visit.scope))) :: rest
  follows : Follows run context world visits
  frames : outcome.Frames announced.core.id [.dispatched depth announced]
    (worldAfter run world visits) (visits.flatMap fun visit => (run visit).events)
  stop : UpToFirst (fun visit => (run visit).value.core.hasFailed) visits unreached
  children : outcome.value.children = (visits.map fun visit => (run visit).value) ++ unreached
  entries : outcome.value.core.context.entries = merged run context.entries visits
  unscoped : ∀ visit ∈ visits, (run visit).value.core.context.scope = none
  done : (∀ visit ∈ visits, ¬ (run visit).value.core.hasFailed) →
    outcome.value.core.status = .done
  failed : ∀ visit ∈ visits, (run visit).value.core.hasFailed →
    outcome.value.core.status = (run visit).value.core.status

theorem events_append_left (run : Visit σ → Outcome σ Work) (steps : List (Step σ))
    (unreached : List Work) :
    (steps ++ unreached.map Step.left).flatMap (Step.events run) =
      steps.flatMap (Step.events run) := by
  simp [List.flatMap_map, Step.events]

theorem failures_append_left (run : Visit σ → Outcome σ Work) (steps : List (Step σ))
    (unreached : List Work) :
    failures run (steps ++ unreached.map .left) = failures run steps := by
  simp [failures, Step.visit?, Function.comp_def]

theorem Shell.ranBlock_context (core : Core) (run : Shell.Children) :
    (Shell.ranBlock core run).context = run.context := by
  unfold ranBlock
  cases run.failed <;> rfl

theorem Shell.ranBlock_status (core : Core) (context : Context) {run : Shell.Children}
    (hrun : ∀ child ∈ run.failed, child.core.hasFailed) :
    (Shell.ranBlock (Core.setStatus { core with context } .running) run).finish.status =
      (run.failed.head?.map (·.core.status)).getD .done := by
  obtain ⟨last, children, failed⟩ := run
  cases failed with
  | nil => rfl
  | cons child rest =>
    have hfailed : child.core.hasFailed := hrun child List.mem_cons_self
    exact Core.finish_of_failure hfailed

/-- A block that is run here from a state that is not resumable: its children are dispatched once
each, in order, up to the first that fails. Each finds the entries that those in front of it have
ended with, and the block takes the state of the child that fails. -/
theorem Position.dispatch_local_block (position : Position) (shell : Shell σ) {block : Work}
    {core : Core} {declared : Context} {children : List Work} {context : Context}
    (hentered : position.enter block = .ok ⟨core, .block declared children⟩)
    (hdepth : position.call.depth ≤ shell.config.maxDelegationDepth)
    (hrealized : Depender.realizeAll position.call.args core.dependers core.context =
      (context, none))
    (hfresh : core.status.isResumable = false) (hhere : Shell.runsHere core) (world : World σ) :
    ∃ visits unreached, RanUntilFailure (Visit.dispatch shell position.call.inner .block core.name)
      position.call.depth (position.announced block) context world children visits unreached
      (position.dispatch shell block world) := by
  obtain ⟨steps, run, hsteps, hframes, hvalue⟩ :=
    position.dispatch_block shell hentered hdepth hrealized hhere world
  rw [hfresh] at hsteps
  obtain ⟨visits, unreached, rfl, hfollows, hlast, hlater, hstop⟩ := hsteps.course.until_failure
  have honce : visits.map Visit.child ++ unreached = children := by
    simpa [Function.comp_def, Step.child] using hsteps.children
  have hended : run.value.children = (visits.map fun visit =>
      (visit.dispatch shell position.call.inner .block core.name).value) ++ unreached := by
    simpa [Function.comp_def, Step.ended] using hsteps.ended
  have hfailed := hsteps.failed
  rw [failures_append_left, failures_visits, List.filter_map] at hfailed
  -- the block has noted at most one failed child, and takes its state
  have hstatus : (position.dispatch shell block world).value.core.status =
      (run.value.failed.head?.map (·.core.status)).getD .done := by
    rw [hvalue, Position.leave_status]
    refine Shell.ranBlock_status core context fun child hchild => ?_
    rw [hfailed] at hchild
    obtain ⟨visit, hvisit, rfl⟩ := List.mem_map.mp hchild
    exact (List.mem_filter.mp hvisit).2
  refine ⟨visits, unreached, honce, ?_, hfollows, ?_, hstop, ?_, ?_, ?_, ?_, ?_⟩
  · intro visit _
    have hinner : position.call.inner.depth ≤ shell.config.maxDelegationDepth := hdepth
    exact visit.dispatch_announced hinner .block core.name
  · obtain ⟨notes, hevents⟩ := hsteps.events
    rw [hevents, hlater, events_append_left, List.flatMap_map] at hframes
    rw [position.announced_id]
    exact hframes.absorb (.notes notes)
  · rw [hvalue, Position.leave_children]
    exact hended
  · rw [hvalue, Position.leave_entries]
    change (Shell.ranBlock _ run.value).context.entries = _
    rw [Shell.ranBlock_context, hlast]
  · intro visit _
    exact visit.dispatch_unscoped shell position.call.inner .block core.name
  · intro hnone
    have hfilter : visits.filter _ = [] := List.filter_eq_nil_iff.mpr hnone
    rw [hstatus, hfailed]
    simp only [Function.comp_def, hfilter]
    rfl
  · intro visit hvisit hfails
    rw [hstatus, hfailed]
    simp only [Function.comp_def, hstop.filter_eq hvisit hfails]
    rfl

def outing : Work :=
  ⟨Core.fresh (.ofNat 3) "outing", .block (.named "outing") [
    .ofSignature (.ofNat 0) "shop"
      (.object "buy" "Market" fun _ context => (context.put "bread" (.ofInt 1), none)),
    .ofSignature (.ofNat 1) "post" (.net "send" "Office"),
    .ofSignature (.ofNat 2) "rest"
      (.object "sit" "Garden" fun _ context => (context.put "bench" (.ofInt 1), none))]⟩

/-- The second child is the last one that is dispatched. -/
theorem Position.dispatch_local_block_outing :
    let outcome := (Position.root none none []).dispatch (Shell.finding none) outing
      ⟨(), .empty 20 1000⟩
    (∃ (visits : List (Visit Unit)) (unreached : List Work),
      visits.map (·.child.name) ++ unreached.map Work.name = ["shop", "post", "rest"] ∧
      outcome.value.core.context.entries =
        merged (Visit.dispatch (Shell.finding none) ⟨0, none, none, []⟩ .block "outing") .empty
          visits) ∧
      outcome.value.core.context.int "bread" = 1 ∧
      outcome.value.core.context.get? "bench" = none ∧
      outcome.value.core.status = .failed := by
  intro outcome
  have hentered : (Position.root none none []).enter outing = .ok outing := rfl
  obtain ⟨visits, unreached, hran⟩ := (Position.root none none []).dispatch_local_block
    (Shell.finding none) hentered (Nat.zero_le _) rfl rfl rfl ⟨(), .empty 20 1000⟩
  refine ⟨⟨visits, unreached, ?_, hran.entries⟩, by decide +kernel, by decide +kernel,
    by decide +kernel⟩
  have honce := congrArg (List.map Work.name) hran.once
  rw [List.map_append, List.map_map] at honce
  exact honce

end ServiceShell
