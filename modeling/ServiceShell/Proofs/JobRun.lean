import ServiceShell.Proofs.Ways
/-!
How a job comes through its children, where the operation of each child depends on nothing but the
values that it reads.
-/
namespace ServiceShell

open Json (Value)

/-- What the operation of a child does when it succeeds: the entries that the child ends with, by
its own entries and what it finds at the paths that it reads. -/
structure Effect where
  reads : List String
  entries : OrderedMap Value → (String → Option Value) → OrderedMap Value
  reads_only : ∀ own view other, (∀ path ∈ reads, view path = other path) →
    entries own view = entries own other

namespace Effect

/-- How a child may end that is run in a scope: it fails without writing anything, or it is done and
has acted by the effect. -/
def Fits (effect : Effect) (child : Work) (scope : Context) (ended : Core) : Prop :=
  ended.name = child.name ∧
    (ended.hasFailed ∧ ended.context.entries = child.core.context.entries ∨
      ended.status = .done ∧ ended.context.entries =
        effect.entries child.core.context.entries (child.core.context.withScope scope).get?)

def Describes (effect : Effect) (operation : Operation) : Prop :=
  ∀ selector context, (operation selector context).1.entries =
    match (operation selector context).2 with
    | none => effect.entries context.entries context.get?
    | some _ => context.entries

end Effect

def Work.LeftOut (resuming : Bool) (child : Work) : Prop :=
  resuming = true ∧ child.core.status = .done

theorem Work.leftOut_iff {resuming : Bool} {child : Work} :
    (resuming && child.core.status = .done) = true ↔ child.LeftOut resuming := by
  simp [LeftOut]

inductive Ran (effects : String → Effect) (resuming : Bool) :
    Context → List Work → Context → List Work → Prop
  | nil (context : Context) : Ran effects resuming context [] context []
  | skip {context last : Context} {child : Work} {rest endeds : List Work} :
    child.LeftOut resuming → Ran effects resuming context rest last endeds →
      Ran effects resuming context (child :: rest) last (child :: endeds)
  | run {context last : Context} {child ended : Work} {rest endeds : List Work} :
    ¬ child.LeftOut resuming → (effects child.name).Fits child context ended.core →
      Ran effects resuming (context.overlay ended.core.context) rest last endeds →
      Ran effects resuming context (child :: rest) last (ended :: endeds)

theorem Ran.names {effects : String → Effect} {resuming : Bool} {context last : Context}
    {children endeds : List Work} (h : Ran effects resuming context children last endeds) :
    endeds.map Work.name = children.map Work.name := by
  induction h with
  | nil => rfl
  | skip _ _ ih => rw [List.map_cons, List.map_cons, ih]
  | run _ hfits _ ih => rw [List.map_cons, List.map_cons, ih, Work.name, hfits.1]

theorem Core.not_hasFailed_of_done {core : Core} (h : core.status = .done) : ¬ core.hasFailed := by
  simp [hasFailed, h, State.isFailure]

namespace Shell
variable {σ : Type} (shell : Shell σ)

def Carries (call : Call) (effect : Effect) (child : Work) : Prop :=
  ∀ (scope : Context) (world : World σ), effect.Fits child scope ((shell.runner call child).dispatch
    (child.core.mapContext (·.withScope scope)) world).value.work.core

theorem runner_dispatch_own {call : Call} (hdepth : call.depth ≤ shell.config.maxDelegationDepth)
    {child : Work} (hbody : child.body = .task none []) (core : Core)
    (hdependers : core.dependers = []) {signature : Signature}
    (hselects : core.fidelities.selects = [signature]) (hprocess : signature.role = .process)
    {operation : Operation} (htarget : signature.target = some operation) (world : World σ) :
    ((shell.runner call child).dispatch core world).value.work.core =
      (operated (core.setStatus .running) signature operation).finish := by
  have hrealized : Depender.realizeAll call.args core.dependers core.context =
      (core.context, none) := by
    rw [hdependers]
    rfl
  have hselected : (core.setStatus .running).fidelities.selects = [signature] := hselects
  rw [runner_dispatch, shell.supervise_value hdepth, proceed_value]
  dsimp only
  rw [hrealized, hbody]
  unfold execute
  dsimp only
  exact (congrArg (fun attempt => attempt.finished.ended.work.core)
    (shell.runTask_target call _ hselected hprocess htarget world)).trans rfl

theorem operated_acts {effect : Effect} {operation : Operation}
    (hdescribes : effect.Describes operation) {core : Core} (hrunning : core.status = .running)
    (signature : Signature) :
    let ended := (operated core signature operation).finish
    ended.name = core.name ∧ (ended.hasFailed ∧ ended.context.entries = core.context.entries ∨
      ended.status = .done ∧
        ended.context.entries = effect.entries core.context.entries core.context.get?) := by
  have hacts := hdescribes signature.selector core.context
  unfold operated
  generalize operation signature.selector core.context = left at hacts ⊢
  obtain ⟨context, fault⟩ := left
  cases fault with
  | none =>
    have hdone : (if core.status = .running then State.done else core.status) = .done :=
      if_pos hrunning
    exact ⟨rfl, .inr ⟨hdone, hacts⟩⟩
  | some fault =>
    have hstatus := State.ofFault_ne_running fault
    have hfailure := State.isFailure_ofFault fault
    refine ⟨rfl, .inl ⟨?_, hacts⟩⟩
    simp [Core.hasFailed, Core.finish, Core.fail, Core.setStatus, Core.report, hstatus, hfailure]

/-- A task with an operation in this process acts as the operation does. -/
theorem carries_of_describes {call : Call} (hdepth : call.depth ≤ shell.config.maxDelegationDepth)
    {effect : Effect} {operation : Operation} (hdescribes : effect.Describes operation)
    {child : Work} (hbody : child.body = .task none []) (hdependers : child.core.dependers = [])
    {signature : Signature} (hselects : child.core.fidelities.selects = [signature])
    (hprocess : signature.role = .process) (htarget : signature.target = some operation) :
    shell.Carries call effect child := by
  intro scope world
  let core := child.core.mapContext (·.withScope scope)
  have hdispatch : ((shell.runner call child).dispatch core world).value.work.core =
      (operated (core.setStatus .running) signature operation).finish :=
    shell.runner_dispatch_own hdepth hbody core hdependers hselects hprocess htarget world
  rw [hdispatch]
  exact operated_acts hdescribes rfl signature

theorem runJobChildren_ran {call : Call} {effects : String → Effect} {resuming : Bool}
    {children : List Work} (hcarries : ∀ child ∈ children, ¬ child.LeftOut resuming →
      shell.Carries call (effects child.name) child) (job : String) (context : Context)
    (world : World σ) :
    let run := (runJobChildren job resuming context (children.map (shell.runner call)) world).value
    Ran effects resuming context children run.context run.children ∧
      (run.failed = [] → ∀ child ∈ run.children, ¬ child.core.hasFailed) := by
  -- each child finds another context and another world than the one before it
  induction children generalizing context world with
  | nil => exact ⟨.nil context, by simp [runJobChildren]⟩
  | cons child rest ih =>
    have hrest := fun other hother => hcarries other (List.mem_cons_of_mem child hother)
    rw [List.map_cons]
    unfold runJobChildren
    rw [shell.runner_child]
    by_cases hskip : child.LeftOut resuming
    · obtain ⟨hran, hall⟩ := ih hrest context world
      rw [if_pos (Work.leftOut_iff.mpr hskip)]
      refine ⟨.skip hskip hran, fun hfailed other hother => ?_⟩
      obtain rfl | hother := List.mem_cons.mp hother
      · exact Core.not_hasFailed_of_done hskip.2
      · exact hall hfailed other hother
    · have hended : (effects child.name).Fits child context
          ((shell.runner call child).runIn .job job context world).value.core := by
        rw [Runner.runIn_value, shell.runner_child]
        exact hcarries child (List.mem_cons_self ..) hskip context world
      rw [if_neg fun h => hskip (Work.leftOut_iff.mp h)]
      simp only [Run.bind_apply, Run.pure_apply]
      generalize ((shell.runner call child).runIn .job job context world).value = ended at hended ⊢
      generalize ((shell.runner call child).runIn .job job context world).world = later
      obtain ⟨hran, hall⟩ := ih hrest (context.overlay ended.core.context) later
      refine ⟨.run hskip hended hran, fun hnone other hother => ?_⟩
      cases hfails : ended.core.hasFailed with
      | true => simp [hfails] at hnone
      | false =>
        obtain rfl | hother := List.mem_cons.mp hother
        · simp [hfails]
        · exact hall (by simpa [hfails] using hnone) other hother

def ranJob (core : Core) (run : Children) : Core :=
  if run.failed.isEmpty then { core with context := run.context }
  else Core.setStatus { core with context := run.context } .failed

def failureNotes (core : Core) (run : Children) : List Event :=
  if run.failed.isEmpty then [] else [.note (.jobFailed core.name (run.failed.map Work.name))]

theorem runJob_apply (core : Core) (resuming : Bool) (runners : List (Runner σ)) (world : World σ) :
    runJob core resuming runners world =
      let run := runJobChildren core.name resuming core.context runners world
      ⟨(ranJob core run.value, run.value.children), run.world,
        run.events ++ failureNotes core run.value⟩ := by
  unfold runJob ranJob failureNotes
  simp only [Run.bind_apply]
  split <;> simp

theorem execute_job (call : Call) {core : Core} {resuming : Bool}
    {dependencies : List Dependency} {children : List Work} {positions : List Nat}
    (hhere : runsHere core) (horder : Job.order children dependencies = .ok positions)
    (world : World σ) :
    shell.execute call core resuming (.job dependencies children) world =
      let run := runJobChildren core.name resuming core.context
        ((Job.arrange children positions).map (shell.runner call.inner)) world
      ⟨⟨⟨ranJob core run.value, .job dependencies run.value.children⟩, .ok .inProcess⟩, run.world,
        run.events ++ failureNotes core run.value⟩ := by
  rw [(Way.job horder hhere).execute_eq]
  simp only [Run.bind_apply, Run.pure_apply, runJob_apply, List.append_nil]

theorem ranJob_ended (core : Core) (context : Context) (run : Children)
    (dependencies : List Dependency) :
    (Attempt.mk ⟨ranJob (Core.setStatus { core with context } .running) run,
      .job dependencies run.children⟩ (.ok .inProcess)).finished.ended.work =
        ⟨Core.setStatus { core with context := run.context }
          (if run.failed.isEmpty then .done else .failed), .job dependencies run.children⟩ := by
  unfold ranJob
  cases run.failed.isEmpty <;> rfl

/-- A job that is executed here: its dependers let it come to its children, which run in order. -/
theorem trySubmit_job {args : List Argument} {job : Work} {core : Core}
    {dependencies : List Dependency} {children : List Work}
    (hprepare : prepare args job = .ok ⟨core, .job dependencies children⟩)
    (hhere : runsHere core) (txn : Option Transaction) (world : World σ)
    (hok : (shell.trySubmit job txn args world).value.result = .ok ()) :
    ∃ context positions,
      Depender.realizeAll args core.dependers core.context = (context, none) ∧
      Job.order children dependencies = .ok positions ∧
      let run := (runJobChildren core.name core.status.isResumable context
        ((Job.arrange children positions).map (shell.runner ⟨0, txn, none, []⟩)) world).value
      (shell.trySubmit job txn args world).value.work =
        ⟨Core.setStatus { core with context := run.context }
          (if run.failed.isEmpty then .done else .failed), .job dependencies run.children⟩ := by
  rw [shell.trySubmit_value hprepare, proceed_value] at hok ⊢
  dsimp only at hok ⊢
  generalize Depender.realizeAll args core.dependers core.context = realized at hok ⊢
  obtain ⟨context, fault⟩ := realized
  cases fault with
  | some fault => cases hok
  | none =>
    dsimp only at hok ⊢
    cases horder : Job.order children dependencies with
    | error e =>
      rw [(Way.unordered horder).execute_eq] at hok
      cases e <;> cases hok
    | ok positions =>
      have hrunning : runsHere (Core.setStatus { core with context } .running) := hhere
      refine ⟨context, positions, rfl, rfl, ?_⟩
      rw [shell.execute_job _ hrunning horder]
      exact ranJob_ended core context _ dependencies

end Shell

end ServiceShell
