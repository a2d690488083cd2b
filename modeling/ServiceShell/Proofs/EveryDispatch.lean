import ServiceShell.Proofs.Framing
/-!
The dispatches of a shell: that of the unit a caller hands in, and those inside another dispatch, of
children, errands, stand-ins and the steps of flows. Each of them executes, behind its dependers, a
unit that is ready, and the execution is that of its body wherever the dispatch is made.
-/
namespace ServiceShell
variable {σ : Type}

theorem Attempt.finished_result (attempt : Attempt) :
    attempt.finished.result = attempt.result := by
  obtain ⟨work, result⟩ := attempt
  cases result <;> rfl

namespace Shell
variable (shell : Shell σ)

def executeReady (call : Call) (ready : Work) : Run σ Attempt :=
  proceed call ready fun core resuming => shell.execute call core resuming ready.body

/-- The dependers let a unit come to its execution, which starts with the given core. -/
def Starts (call : Call) (core running : Core) : Prop :=
  ∃ context, Depender.realizeAll call.args core.dependers core.context = (context, none) ∧
    running = Core.setStatus { core with context } .running

def stepUnit (id : Uuid) (core : Core) (signature : Signature) : Work :=
  let fresh := Core.fresh id s!"{core.name}:{signature.selector}"
  let fresh := { fresh with context := core.context }
  ⟨fresh.mapControl ({ · with fidelities := .ofSignatures [signature.withRole .process] }),
    .task none []⟩

def standInUnit (id : Uuid) (core : Core) (signature : Signature) (operation : Operation) : Work :=
  (Work.ofSignature id core.name
    (.object signature.selector signature.type operation)).mapCore
      (·.mapContext (·.overlay core.context))

def dispatchStep (call : Call) (id : Uuid) (core : Core) (signature : Signature) :
    Run σ Dispatched :=
  shell.supervise call (stepUnit id core signature) fun step =>
    proceed call step fun core _ => shell.perform call core (.task none [])

def dispatchErrand (call : Call) (core : Core) (model : Option (List Procedure))
    (errands : List Errand) : Run σ Dispatched :=
  shell.supervise call ⟨core, .task model errands⟩ fun errand =>
    proceed call errand fun core _ => shell.runTask call core model errands

/-- The dispatches of a shell, by the unit that is dispatched, and by the unit that is ready behind
the preparation, or the error with which it is refused there. Only a caller's unit is prepared. -/
inductive Dispatches (shell : Shell σ) :
    Call → Work → Except DispatchError Work → Run σ Dispatched → Prop
  | root (call : Call) (work : Work) :
    Dispatches shell call work (prepare call.args work) (shell.dispatch call work)
  | child (call : Call) (child : Work) (core : Core) :
    Dispatches shell call { child with core } (.ok { child with core })
      ((shell.runner call child).dispatch core)
  | errand (call : Call) (core : Core) (model : Option (List Procedure)) (errands : List Errand) :
    Dispatches shell call ⟨core, .task model errands⟩ (.ok ⟨core, .task model errands⟩)
      (shell.dispatchErrand call core model errands)
  | standIn (call : Call) (id : Uuid) (core : Core) (signature : Signature)
      (operation : Operation) :
    Dispatches shell call (standInUnit id core signature operation)
      (.ok (standInUnit id core signature operation))
      (shell.dispatchOwn call (.object signature.selector signature.type operation) operation
        (standInUnit id core signature operation))
  | step (call : Call) (id : Uuid) (core : Core) (signature : Signature) :
    Dispatches shell call (stepUnit id core signature) (.ok (stepUnit id core signature))
      (shell.dispatchStep call id core signature)

def executeEntered (call : Call) (entered : Except DispatchError Work) (work : Work) :
    Run σ Attempt :=
  match entered with
  | .error error => pure ⟨work, .error error⟩
  | .ok ready => shell.executeReady call ready

theorem executePrepared_eq (call : Call) (work : Work) : shell.executePrepared call work =
    shell.executeEntered call (prepare call.args work) work := by
  unfold executePrepared executeEntered
  cases prepare call.args work <;> rfl

theorem executeReady_started {call : Call} {core running : Core}
    (hstarts : Starts call core running) (body : Body Work) (world : World σ) :
    (shell.executeReady call ⟨core, body⟩ world).value =
      (shell.execute call running core.status.isResumable body world).value.finished := by
  obtain ⟨context, hrealized, rfl⟩ := hstarts
  rw [executeReady, proceed_value]
  dsimp only
  rw [hrealized]

theorem executeReady_ok {call : Call} {core : Core} {body : Body Work} {world : World σ}
    {route : Route} (h : (shell.executeReady call ⟨core, body⟩ world).value.result = .ok route) :
    ∃ running, Starts call core running ∧
      (shell.execute call running core.status.isResumable body world).value.result =
        .ok route := by
  rcases hrealized : Depender.realizeAll call.args core.dependers core.context with
    ⟨context, _ | fault⟩
  · have hstarts : Starts call core (Core.setStatus { core with context } .running) :=
      ⟨context, hrealized, rfl⟩
    rw [shell.executeReady_started hstarts, Attempt.finished_result] at h
    exact ⟨_, hstarts, h⟩
  · rw [executeReady, proceed_value] at h
    dsimp only at h
    rw [hrealized] at h
    cases h

theorem supervise_congr {call : Call} {work : Work} {execute other : Work → Run σ Attempt}
    (h : execute work = other work) :
    shell.supervise call work execute = shell.supervise call work other := by
  unfold supervise
  rw [h]

theorem proceed_congr {call : Call} {work : Work} {route other : Core → Bool → Run σ Attempt}
    (h : ∀ context resuming, route (Core.setStatus { work.core with context } .running) resuming =
      other (Core.setStatus { work.core with context } .running) resuming) :
    proceed call work route = proceed call work other := by
  funext world
  obtain ⟨hvalue, -⟩ := realize_apply call.args work.core.dependers work.core world
  unfold proceed
  simp only [Run.bind_apply, hvalue]
  cases (Depender.realizeAll call.args work.core.dependers work.core.context).2 with
  | some fault => rfl
  | none => simp only [h]

theorem supervise_ready {call : Call} {work : Work} {route : Core → Bool → Run σ Attempt}
    (h : ∀ context resuming, route (Core.setStatus { work.core with context } .running) resuming =
      shell.execute call (Core.setStatus { work.core with context } .running) resuming work.body) :
    (shell.supervise call work fun unit => proceed call unit route) =
      shell.supervise call work (shell.executeEntered call (.ok work)) := by
  have hsame : proceed call work route = shell.executeReady call work := proceed_congr h
  exact shell.supervise_congr hsame

def Single (running : Core) : Prop := running.fidelities.selects.length ≤ 1

theorem runPlain_model (call : Call) {core : Core} (hsingle : Single core)
    (procedures : List Procedure) :
    shell.runPlain call core (some procedures) = do
      return ⟨⟨← compute core procedures .taskModelFailed, .task (some procedures) []⟩,
        .ok .model⟩ := by
  unfold Single at hsingle
  unfold runPlain
  generalize core.fidelities.selects = selects at hsingle ⊢
  rcases selects with _ | ⟨first, _ | ⟨second, rest⟩⟩
  · rfl
  · rfl
  · simp at hsingle

theorem runPlain_flow (call : Call) {core : Core} (hflow : ¬ Single core)
    (model : Option (List Procedure)) :
    shell.runPlain call core model = do
      return ⟨⟨← runFlow (shell.runStep call) core, .task model []⟩, .ok .controlFlow⟩ := by
  unfold Single at hflow
  unfold runPlain
  generalize core.fidelities.selects = selects at hflow ⊢
  rcases selects with _ | ⟨first, _ | ⟨second, rest⟩⟩
  · simp at hflow
  · simp at hflow
  · cases model <;> rfl

theorem runPlain_signature (call : Call) {core : Core} (hsingle : Single core) :
    shell.runPlain call core none = shell.perform call core (.task none []) := by
  unfold Single at hsingle
  unfold runPlain
  generalize core.fidelities.selects = selects at hsingle ⊢
  rcases selects with _ | ⟨first, _ | ⟨second, rest⟩⟩
  · rfl
  · rfl
  · simp at hsingle

theorem execute_single (call : Call) {core : Core} (resuming : Bool) (hsingle : Single core) :
    shell.execute call core resuming (.task none []) =
      shell.perform call core (.task none []) := by
  unfold execute runTask
  exact shell.runPlain_signature call hsingle

theorem perform_target (call : Call) {core : Core} (body : Body Work) {signature : Signature}
    {operation : Operation} (hsignature : core.processSignature = some signature)
    (htarget : signature.target = some operation) :
    shell.perform call core body = do
      return ⟨⟨← operate core signature operation, body⟩, .ok .inProcess⟩ := by
  unfold perform
  rw [hsignature]
  dsimp only
  rw [htarget]

theorem dispatchErrand_eq (call : Call) (core : Core) (model : Option (List Procedure))
    (errands : List Errand) :
    shell.dispatchErrand call core model errands = shell.supervise call ⟨core, .task model errands⟩
      (shell.executeEntered call (.ok ⟨core, .task model errands⟩)) := by
  refine shell.supervise_ready fun context resuming => ?_
  unfold execute
  rfl

theorem dispatchOwn_eq (call : Call) (id : Uuid) (core : Core) (signature : Signature)
    (operation : Operation) :
    let unit := standInUnit id core signature operation
    shell.dispatchOwn call (.object signature.selector signature.type operation) operation unit =
      shell.supervise call unit (shell.executeEntered call (.ok unit)) := by
  refine shell.supervise_ready fun context resuming => ?_
  refine Eq.trans ?_ (shell.execute_single call resuming ?_).symm
  · exact (shell.perform_target call _ rfl rfl).symm
  · exact Nat.le_refl 1

theorem dispatchStep_eq (call : Call) (id : Uuid) (core : Core) (signature : Signature) :
    shell.dispatchStep call id core signature = shell.supervise call (stepUnit id core signature)
      (shell.executeEntered call (.ok (stepUnit id core signature))) := by
  refine shell.supervise_ready fun context resuming => ?_
  refine (shell.execute_single call resuming ?_).symm
  exact Nat.le_refl 1

namespace Dispatches
variable {shell} {call : Call} {work ready : Work} {entered : Except DispatchError Work}
  {run : Run σ Dispatched}

theorem apply (h : shell.Dispatches call work entered run) (world : World σ) :
    let ended := shell.supervise call work (shell.executeEntered call entered) world
    ∃ later, Framing work.core.id later ∧
      run world = ⟨ended.value, ended.world, ended.events ++ later⟩ := by
  have hinner {inner : Run σ Dispatched}
      (hsame : inner = shell.supervise call work (shell.executeEntered call entered)) :
      ∃ later, Framing work.core.id later ∧ inner world =
        let ended := shell.supervise call work (shell.executeEntered call entered) world
        ⟨ended.value, ended.world, ended.events ++ later⟩ := by
    subst hsame
    exact ⟨[], .nil, by simp only [List.append_nil]⟩
  cases h with
  | root =>
    rw [← shell.supervise_congr (shell.executePrepared_eq call work)]
    exact ⟨[.flushed], .singleton trivial, shell.dispatch_apply call work world⟩
  | child child core => exact hinner (shell.runner_dispatch call child core)
  | errand core model errands => exact hinner (shell.dispatchErrand_eq call core model errands)
  | standIn id core signature operation =>
    exact hinner (shell.dispatchOwn_eq call id core signature operation)
  | step id core signature => exact hinner (shell.dispatchStep_eq call id core signature)

theorem value (h : shell.Dispatches call work entered run)
    (hdepth : call.depth ≤ shell.config.maxDelegationDepth) (world : World σ) :
    (run world).value = (shell.executeEntered call entered work world).value.ended := by
  obtain ⟨later, -, hrun⟩ := h.apply world
  rw [hrun]
  exact shell.supervise_value hdepth world

theorem ready_id (h : shell.Dispatches call work entered run) (hready : entered = .ok ready) :
    ready.core.id = work.core.id := by
  cases h with
  | root => exact prepare_id hready
  | _ =>
    obtain rfl := Except.ok.inj hready
    rfl

/-- A dispatch that comes past the dependers is the execution within its frame. -/
theorem executed {core running : Core} {body : Body Work}
    (h : shell.Dispatches call work (.ok ⟨core, body⟩) run)
    (hdepth : call.depth ≤ shell.config.maxDelegationDepth) (hstarts : Starts call core running)
    (world : World σ) :
    let attempt := shell.execute call running core.status.isResumable body world
    (run world).Frames work.core.id [.dispatched call.depth work] attempt.world attempt.events ∧
      (run world).value = attempt.value.finished.ended := by
  have hvalue : (run world).value = (shell.executeReady call ⟨core, body⟩ world).value.ended :=
    h.value hdepth world
  rw [shell.executeReady_started hstarts] at hvalue
  refine ⟨?_, hvalue⟩
  obtain ⟨framing, hframing, hrun⟩ := h.apply world
  have hid : core.id = work.core.id := h.ready_id rfl
  have hsupervised := shell.supervise_frames core.id call work
    (shell.executeEntered call (.ok ⟨core, body⟩)) hdepth world
  obtain ⟨context, hrealized, rfl⟩ := hstarts
  have hproceeds : (shell.executeReady call ⟨core, body⟩ world).Frames core.id [] _ _ :=
    proceed_frames hrealized world
  rw [← hid] at hframing ⊢
  rw [hrun]
  exact (hsupervised.trans hproceeds).extend rfl rfl hframing

end Dispatches
end Shell
end ServiceShell
