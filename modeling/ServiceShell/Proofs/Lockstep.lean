import ServiceShell.Proofs.Likeness
import ServiceShell.Proofs.Ways
/-!
Two shells that allow for the same delegations execute the same units alike: what is executed in
this process anyway, and all else as far as it is sent alike. Which units these are is left open
here.
-/
namespace ServiceShell
variable {σ τ : Type}

namespace Shell
variable {like : Likeness σ τ} {shell : Shell σ} {other : Shell τ} {r : Uuid → Uuid → Prop}

theorem persist_alike {work twin : Work} (htwin : work.Twin r twin) :
    Run.Alike like Eq (persist (σ := σ) work) (persist (σ := τ) twin) := by
  obtain ⟨core, body⟩ := work
  obtain ⟨twinCore, twinBody⟩ := twin
  obtain ⟨⟨id, -, hcore⟩, hbody⟩ := htwin
  obtain rfl : twinCore = { core with id } := hcore
  obtain rfl : twinBody = body := hbody
  intro world last hworlds
  have hevents : (persist (σ := τ) ⟨{ core with id }, twinBody⟩ last).events =
      (persist (σ := σ) ⟨core, twinBody⟩ world).events := by
    simp only [persist, Work.units, List.flatMap_append, List.flatMap_singleton]
    rfl
  refine ⟨rfl, hworlds, ?_⟩
  rw [hevents]
  refine .of_forall₂ (List.forall₂_same.mpr fun event hevent => ?_)
  obtain ⟨unit, -, hunit⟩ := List.mem_flatMap.mp hevent
  obtain ⟨persister, -, rfl⟩ := List.mem_map.mp hunit
  cases unit.core.context.get? persister.source with
  | some value => exact .stored _ value
  | none => exact .note _

/-- Two reports differ at most in the time and the id. -/
theorem record_alike (hr : like.Grade r) {work twin : Work} (htwin : work.Twin r twin)
    (route : Route) : Run.Alike like Eq (shell.record work route) (other.record twin route) := by
  obtain ⟨core, body⟩ := work
  obtain ⟨twinCore, twinBody⟩ := twin
  obtain ⟨⟨id, hsame, hcore⟩, hbody⟩ := htwin
  obtain rfl : twinCore = { core with id } := hcore
  obtain rfl : twinBody = body := hbody
  exact fun _ _ hworlds => ⟨rfl, hworlds, .singleton (.recorded ⟨hr.same hsame, rfl⟩)⟩

theorem supervise_alike (h : like.Shells shell other) (hr : like.Grade r) (call : Call)
    {work twin : Work} (htwin : work.Twin r twin) {execute : Work → Run σ Attempt}
    {executeOther : Work → Run τ Attempt}
    (hexecute : Run.Alike like (Attempt.Twin r) (execute work) (executeOther twin)) :
    Run.Alike like (Dispatched.Twin r) (shell.supervise call work execute)
      (other.supervise call twin executeOther) := by
  have htooDeep : other.tooDeep twin.name = shell.tooDeep work.name := by
    rw [tooDeep, tooDeep, h.depth, htwin.name_eq]
  have hkind : twin.kind = work.kind := by rw [Work.kind, Work.kind, htwin.body]
  unfold supervise
  rw [h.depth, htooDeep, hkind, htwin.name_eq]
  split
  · exact (Run.Alike.note _).after (.pure ⟨htwin.fail _, rfl⟩)
  · refine (Run.Alike.emit (.dispatched call.depth (htwin.mono hr.same))).after ?_
    refine (Run.Alike.note _).after (hexecute.bind fun attempt otherAttempt hattempt => ?_)
    obtain ⟨hwork, hresult⟩ := hattempt
    rw [← hresult]
    cases attempt.result with
    | ok route =>
      dsimp only
      rw [hwork.core.hasFailed_eq]
      split
      · exact (persist_alike hwork).after ((record_alike hr hwork route).after (.pure ⟨hwork, rfl⟩))
      · exact (record_alike hr hwork route).after (.pure ⟨hwork, rfl⟩)
    | error e =>
      dsimp only
      rw [hwork.name_eq]
      have hfailed := hwork.fail e.asRoutine.toFault
      exact (Run.Alike.note _).after
        ((record_alike hr hfailed .aborted).after (.pure ⟨hfailed, rfl⟩))

/-- Dependers change nothing but the context. -/
theorem realize_alike (hr : like.Grade r) (args : List Argument) (dependers : List Depender)
    {core twin : Core} (htwin : core.Twin r twin) :
    Run.Alike like (fun left right => Core.TwinWith r left right ∧
        ∃ context, left.1 = { core with context })
      (realize (σ := σ) args dependers core) (realize (σ := τ) args dependers twin) := by
  induction dependers generalizing core twin with
  | nil => exact .pure ⟨⟨htwin, rfl⟩, core.context, rfl⟩
  | cons depender rest ih =>
    obtain ⟨id, hsame, rfl⟩ := htwin
    unfold realize
    refine (Run.Alike.emit (.realized depender.name (hr.same hsame))).after ?_
    obtain ⟨context, fault⟩ := depender.realize core.context args
    cases fault with
    | none =>
      have hrest : Core.Twin r { core with context } { core with id, context } :=
        ⟨id, hsame, rfl⟩
      exact ih hrest
    | some fault =>
      exact (Run.Alike.note _).after (.pure ⟨⟨⟨id, hsame, rfl⟩, rfl⟩, context, rfl⟩)

theorem proceed_alike (hr : like.Grade r) (call : Call) {work twin : Work}
    (htwin : work.Twin r twin)
    {route : Core → Bool → Run σ Attempt} {routeOther : Core → Bool → Run τ Attempt}
    (hroute : ∀ context resuming twin,
      (Core.setStatus { work.core with context } .running).Twin r twin →
        Run.Alike like (Attempt.Twin r)
          (route (Core.setStatus { work.core with context } .running) resuming)
          (routeOther twin resuming)) :
    Run.Alike like (Attempt.Twin r) (proceed call work route)
      (proceed call twin routeOther) := by
  obtain ⟨core, body⟩ := work
  obtain ⟨twinCore, twinBody⟩ := twin
  obtain ⟨hcore, hbody⟩ := htwin
  obtain rfl : twinBody = body := hbody
  have hdependers : twinCore.dependers = core.dependers ∧ twinCore.status = core.status := by
    obtain ⟨id, -, rfl⟩ := hcore
    exact ⟨rfl, rfl⟩
  unfold proceed
  dsimp only
  rw [hdependers.1, hdependers.2]
  refine (realize_alike hr call.args core.dependers hcore).bind fun left right hrealized => ?_
  obtain ⟨realized, result⟩ := left
  obtain ⟨twinRealized, twinResult⟩ := right
  obtain ⟨⟨hrealized, rfl⟩, context, rfl⟩ := hrealized
  cases result with
  | error e => exact .pure ⟨⟨hrealized, rfl⟩, rfl⟩
  | ok =>
    refine (hroute context _ _ (hrealized.setStatus .running)).bind fun attempt last hattempt => ?_
    obtain ⟨hwork, hresult⟩ := hattempt
    rw [← hresult]
    cases hcase : attempt.result with
    | ok route => exact .pure ⟨⟨hwork.core.finish, hwork.body⟩, rfl⟩
    | error e => exact .pure ⟨hwork, hresult⟩

theorem runCode_alike {core twin : Core} (htwin : core.Twin r twin) {event other : Event}
    (hevent : event.Twin like.same other) (failure : Fault → Note)
    (outcome : Context × Option Fault) :
    Run.Alike like (Core.Twin r) (runCode (σ := σ) event failure core outcome)
      (runCode (σ := τ) other failure twin outcome) := by
  refine (Run.Alike.emit hevent).after ((Run.Alike.noteAll _).after (.pure ?_))
  refine htwin.map (·.withOutcome outcome) ?_ fun id => ?_ <;>
    obtain ⟨context, _ | fault⟩ := outcome <;> rfl

theorem OwnCode.twin (hr : like.Grade r) {core twin : Core} (htwin : core.Twin r twin)
    {body : Body Work} {code : Run σ Core} {route : Route} (h : OwnCode core body code route) :
    ∃ codeOther : Run τ Core, OwnCode twin body codeOther route ∧
      Run.Alike like (Core.Twin r) code codeOther := by
  obtain ⟨id, hsame, rfl⟩ := htwin
  have htwin : core.Twin r { core with id } := ⟨id, hsame, rfl⟩
  cases h with
  | model =>
    refine ⟨_, .model, ?_⟩
    rw [compute_eq, compute_eq]
    exact runCode_alike htwin (.computed _ (hr.same hsame)) _ _
  | taskModel hsingle =>
    refine ⟨_, .taskModel hsingle, ?_⟩
    rw [compute_eq, compute_eq]
    exact runCode_alike htwin (.computed _ (hr.same hsame)) _ _
  | operation hsingle hsignature htarget =>
    refine ⟨_, .operation hsingle hsignature htarget, ?_⟩
    rw [operate_eq, operate_eq]
    exact runCode_alike (htwin.mapControl _) (.operated _ (hr.same hsame)) _ _

theorem served_twin {core twin : Core} (htwin : core.Twin r twin) (standIn : Work) :
    (served core standIn).Twin r (served twin standIn) := by
  unfold served
  cases standIn.core.processSignature with
  | none => exact htwin
  | some signature => exact htwin.mapControl (·.noteService signature)

theorem handedBack_twin {core twin : Core} (htwin : core.Twin r twin)
    {any : Uuid → Uuid → Prop} {ended last : Dispatched} (hended : ended.Twin any last) :
    Core.TwinWith r (handedBack core ended) (handedBack twin last) := by
  unfold handedBack
  rw [← hended.result]
  cases ended.result with
  | error e => exact ⟨htwin, rfl⟩
  | ok => exact ⟨htwin.takeBack hended.work.core, rfl⟩

theorem givenOver_twin {core twin : Core} (htwin : core.Twin r twin) (body : Body Work)
    {any : Uuid → Uuid → Prop} {ended last : Dispatched} (hended : ended.Twin any last) :
    Attempt.Twin r (givenOver core body ended) (givenOver twin body last) := by
  have hback := handedBack_twin htwin hended
  rw [givenOver_eq, givenOver_eq, ← hback.rest]
  exact ⟨.of_core hback.core body, rfl⟩

def DispatchesAlike (like : Likeness σ τ) (shell : Shell σ) (other : Shell τ) (unit : Work) :
    Prop :=
  ∀ ⦃r⦄, like.Grade r → ∀ (call : Call) (twin : Work), unit.Twin r twin →
    Run.Alike like (Dispatched.Twin r) (shell.dispatchReady call unit)
      (other.dispatchReady call twin)

def ExecutesAlike (like : Likeness σ τ) (shell : Shell σ) (other : Shell τ) (core : Core)
    (body : Body Work) : Prop :=
  ∀ ⦃r⦄, like.Grade r → ∀ (call : Call) (resuming : Bool) (twin : Core), core.Twin r twin →
    Run.Alike like (Attempt.Twin r) (shell.execute call core resuming body)
      (other.execute call twin resuming body)

def SendsAlike (like : Likeness σ τ) (shell : Shell σ) (other : Shell τ) (work : Work) : Prop :=
  ∀ ⦃r⦄, like.Grade r → ∀ (call : Call) (twin : Work), work.Twin r twin →
    Run.Alike like (Attempt.Twin r) (shell.send call work) (other.send call twin)

theorem ExecutesAlike.executeReady {unit : Work} (hexecutes : ∀ context, ExecutesAlike like shell
      other (Core.setStatus { unit.core with context } .running) unit.body)
    (hr : like.Grade r) (call : Call) {twin : Work} (htwin : unit.Twin r twin) :
    Run.Alike like (Attempt.Twin r) (shell.executeReady call unit)
      (other.executeReady call twin) := by
  unfold Shell.executeReady
  rw [htwin.body]
  exact proceed_alike hr call htwin fun context resuming last hlast =>
    hexecutes context hr call resuming last hlast

theorem dispatchesAlike_of_executesAlike (h : like.Shells shell other) {unit : Work}
    (hexecutes : ∀ context, ExecutesAlike like shell other
      (Core.setStatus { unit.core with context } .running) unit.body) :
    DispatchesAlike like shell other unit :=
  fun _ hr call _ htwin =>
    supervise_alike h hr call htwin (ExecutesAlike.executeReady hexecutes hr call htwin)

theorem stepped_alike {core twin : Core} (htwin : core.Twin r twin)
    {any : Uuid → Uuid → Prop} {ended last : Dispatched} (hended : ended.Twin any last) :
    Run.Alike like (Core.TwinWith r) (stepped (σ := σ) core ended)
      (stepped (σ := τ) twin last) := by
  obtain ⟨id, hsame, rfl⟩ := htwin
  obtain ⟨stepId, -, hstep⟩ := hended.work.core
  have hfailed : (last.work.core.hasFailed || !last.work.core.exceptions.isEmpty) =
      (ended.work.core.hasFailed || !ended.work.core.exceptions.isEmpty) := by
    rw [hstep]
    rfl
  unfold stepped
  dsimp only
  rw [hfailed, hstep]
  split
  · exact (Run.Alike.note _).after (.pure ⟨⟨id, hsame, rfl⟩, rfl⟩)
  · exact .pure ⟨⟨id, hsame, rfl⟩, rfl⟩

theorem runStep_alike (h : like.Shells shell other) (call : Call) {core twin : Core}
    (htwin : core.Twin r twin) {signature : Signature}
    (hstep : ∀ id, DispatchesAlike like shell other (stepUnit id core signature)) :
    Run.Alike like (Core.TwinWith r) (shell.runStep call core signature)
      (other.runStep call twin signature) := by
  rw [runStep_eq, runStep_eq]
  refine h.fresh.bind fun fresh last hfresh => ?_
  have hunit : (stepUnit fresh core signature).Twin like.same (stepUnit last twin signature) := by
    obtain ⟨id, -, rfl⟩ := htwin
    exact ⟨⟨last, hfresh, rfl⟩, rfl⟩
  exact (hstep fresh like.grade_same call.inner _ hunit).bind fun _ _ hended =>
    stepped_alike htwin hended

section Flow
variable {step : Core → Signature → Run σ (Core × StepResult)}
  {stepOther : Core → Signature → Run τ (Core × StepResult)}

theorem runUntilFailure_alike {signatures : List Signature}
    (hstep : ∀ core twin, core.Twin r twin → ∀ signature ∈ signatures,
      Run.Alike like (Core.TwinWith r) (step core signature) (stepOther twin signature))
    {core twin : Core} (htwin : core.Twin r twin) :
    Run.Alike like (Core.TwinWith r) (runUntilFailure step core signatures)
      (runUntilFailure stepOther twin signatures) := by
  induction signatures generalizing core twin with
  | nil => exact .pure ⟨htwin, rfl⟩
  | cons signature rest ih =>
    unfold runUntilFailure
    refine (hstep core twin htwin signature (List.mem_cons_self ..)).bind
      fun left right hended => ?_
    obtain ⟨ended, result⟩ := left
    obtain ⟨last, lastResult⟩ := right
    obtain ⟨hended, rfl⟩ := hended
    cases result with
    | none =>
      exact ih (fun core twin htwin signature hsignature =>
        hstep core twin htwin signature (List.mem_cons_of_mem _ hsignature)) hended
    | some faults => exact .pure ⟨hended, rfl⟩

theorem runUntilSuccess_alike {signatures : List Signature}
    (hstep : ∀ core twin, core.Twin r twin → ∀ signature ∈ signatures,
      Run.Alike like (Core.TwinWith r) (step core signature) (stepOther twin signature))
    {core twin : Core} (htwin : core.Twin r twin) (faults : List Fault) :
    Run.Alike like (Core.TwinWith r) (runUntilSuccess step core faults signatures)
      (runUntilSuccess stepOther twin faults signatures) := by
  induction signatures generalizing core twin faults with
  | nil => exact .pure ⟨htwin, rfl⟩
  | cons signature rest ih =>
    unfold runUntilSuccess
    refine (hstep core twin htwin signature (List.mem_cons_self ..)).bind
      fun left right hended => ?_
    obtain ⟨ended, result⟩ := left
    obtain ⟨last, lastResult⟩ := right
    obtain ⟨hended, rfl⟩ := hended
    cases result with
    | none => exact .pure ⟨hended, rfl⟩
    | some more =>
      exact ih (fun core twin htwin signature hsignature =>
        hstep core twin htwin signature (List.mem_cons_of_mem _ hsignature)) hended (faults ++ more)

theorem runFlow_alike {core twin : Core} (htwin : core.Twin r twin)
    (hstep : ∀ running twin, running.Twin r twin →
      ∀ signature ∈ core.fidelities.selects, Run.Alike like (Core.TwinWith r)
        (step running signature) (stepOther twin signature)) :
    Run.Alike like (Core.Twin r) (runFlow step core) (runFlow stepOther twin) := by
  have hselects : twin.fidelities.selects = core.fidelities.selects := by
    obtain ⟨id, -, rfl⟩ := htwin
    rfl
  have hrole (role : Role) (running twin : Core) (htwin : running.Twin r twin) :
      ∀ signature ∈ core.fidelities.selects.filter fun signature => signature.role = role,
        Run.Alike like (Core.TwinWith r) (step running signature)
          (stepOther twin signature) :=
    fun signature hsignature =>
      hstep running twin htwin signature (List.mem_of_mem_filter hsignature)
  unfold runFlow
  rw [hselects]
  refine (runUntilFailure_alike (hrole .prepare) htwin).bind fun left right hprepared => ?_
  obtain ⟨prepared, faults⟩ := left
  obtain ⟨last, lastFaults⟩ := right
  obtain ⟨hprepared, rfl⟩ := hprepared
  cases faults with
  | some faults => exact .pure (hprepared.failWith faults _)
  | none =>
    refine (runUntilSuccess_alike (hrole .process) hprepared []).bind
      fun left right hprocessed => ?_
    obtain ⟨processed, faults⟩ := left
    obtain ⟨last, lastFaults⟩ := right
    obtain ⟨hprocessed, rfl⟩ := hprocessed
    cases faults with
    | some faults => exact .pure (hprocessed.failWith faults _)
    | none =>
      refine (runUntilFailure_alike (hrole .postprocess) hprocessed).bind
        fun left right hended => ?_
      obtain ⟨ended, faults⟩ := left
      obtain ⟨last, lastFaults⟩ := right
      obtain ⟨hended, rfl⟩ := hended
      cases faults with
      | some faults => exact .pure (hended.failWith faults _)
      | none => exact .pure hended

end Flow

structure Runner.Alike (like : Likeness σ τ) (runner : Runner σ) (other : Runner τ) : Prop where
  child : other.child = runner.child
  dispatch (scope : Context) : Run.Alike like (Dispatched.Twin Eq)
    (runner.dispatch (runner.child.core.mapContext (·.withScope scope)))
    (other.dispatch (runner.child.core.mapContext (·.withScope scope)))

theorem runIn_alike {runner : Runner σ} {last : Runner τ} (h : runner.Alike like last) (kind : Kind)
    (parent : String) (context : Context) :
    Run.Alike like Eq (runner.runIn kind parent context) (last.runIn kind parent context) := by
  unfold Runner.runIn
  rw [h.child]
  refine (h.dispatch _).bind fun ended last hended => ?_
  rw [hended.work.eq, ← hended.result]
  cases ended.result with
  | ok => exact .pure rfl
  | error e => exact (Run.Alike.note _).after (.pure rfl)

section Children
variable {runners : List (Runner σ)} {others : List (Runner τ)}

theorem runJobChildren_alike (h : runners.Forall₂ (Runner.Alike like) others) (job : String)
    (resuming : Bool) (context : Context) :
    Run.Alike like Eq (runJobChildren job resuming context runners)
      (runJobChildren job resuming context others) := by
  induction h generalizing context with
  | nil => exact .pure rfl
  | cons hrunner _ ih =>
    unfold runJobChildren
    rw [hrunner.child]
    split
    · exact (ih context).bind fun _ _ heq => heq ▸ .pure rfl
    · refine (runIn_alike hrunner .job job context).bind fun child last heq => ?_
      subst heq
      exact (ih _).bind fun _ _ heq => heq ▸ .pure rfl

theorem runBlockChildren_alike (h : runners.Forall₂ (Runner.Alike like) others) (block : String)
    (resuming : Bool) (context : Context) :
    Run.Alike like Eq (runBlockChildren block resuming context runners)
      (runBlockChildren block resuming context others) := by
  induction h generalizing context with
  | nil => exact .pure rfl
  | @cons runner other runners others hrunner hrest ih =>
    have hchildren : others.map Runner.child = runners.map Runner.child := by
      clear ih
      induction hrest with
      | nil => rfl
      | cons hrunner _ ih => rw [List.map_cons, List.map_cons, hrunner.child, ih]
    unfold runBlockChildren
    rw [hrunner.child, hchildren]
    split
    · exact (ih context).bind fun _ _ heq => heq ▸ .pure rfl
    · refine (runIn_alike hrunner .block block context).bind fun child last heq => ?_
      subst heq
      dsimp only
      split
      · exact (Run.Alike.note _).after (.pure rfl)
      · exact (ih _).bind fun _ _ heq => heq ▸ .pure rfl

theorem runJob_alike (h : runners.Forall₂ (Runner.Alike like) others) {core coreTwin : Core}
    (htwin : core.Twin r coreTwin) (resuming : Bool) :
    Run.Alike like (Core.TwinWith r) (runJob core resuming runners)
      (runJob coreTwin resuming others) := by
  obtain ⟨id, hid, rfl⟩ := htwin
  unfold runJob
  refine (runJobChildren_alike h core.name resuming core.context).bind fun run last heq => ?_
  subst heq
  dsimp only
  split
  · exact .pure ⟨⟨id, hid, rfl⟩, rfl⟩
  · exact (Run.Alike.note _).after (.pure ⟨⟨id, hid, rfl⟩, rfl⟩)

theorem runBlock_alike (h : runners.Forall₂ (Runner.Alike like) others) {core coreTwin : Core}
    (htwin : core.Twin r coreTwin) (resuming : Bool) :
    Run.Alike like (Core.TwinWith r) (runBlock core resuming runners)
      (runBlock coreTwin resuming others) := by
  obtain ⟨id, hid, rfl⟩ := htwin
  unfold runBlock
  refine (runBlockChildren_alike h core.name resuming core.context).bind fun run last heq => ?_
  subst heq
  dsimp only
  split <;> exact .pure ⟨⟨id, hid, rfl⟩, rfl⟩

end Children

theorem runner_alike {child : Work} (h : like.Shells shell other) (call : Call)
    (hchild : ∀ scope, DispatchesAlike like shell other
      (child.mapCore (·.mapContext (·.withScope scope)))) :
    Runner.Alike like (shell.runner call child) (other.runner call child) where
  child := by rw [shell.runner_child, other.runner_child]
  dispatch scope := by
    rw [shell.runner_child, runner_dispatchReady, runner_dispatchReady]
    exact hchild scope h.grade_eq call _ (.refl (fun _ => rfl) _)

theorem runners_alike (h : like.Shells shell other) (call : Call) {children : List Work}
    (hchildren : ∀ child ∈ children, ∀ scope, DispatchesAlike like shell other
      (child.mapCore (·.mapContext (·.withScope scope)))) :
    (children.map (shell.runner call)).Forall₂ (Runner.Alike like)
      (children.map (other.runner call)) :=
  List.forall₂_map_left_iff.mpr (List.forall₂_map_right_iff.mpr (List.forall₂_same.mpr
    fun child hchild => runner_alike h call (hchildren child hchild)))

theorem Departs.twin {core twin : Core} {body sent : Body Work} (h : Departs core body sent)
    (htwin : core.Twin r twin) : Departs twin body sent := by
  obtain ⟨id, -, rfl⟩ := htwin
  cases h with
  | task hsingle htravels => exact .task hsingle htravels
  | job horder hhere => exact .job horder hhere
  | block hhere => exact .block hhere

/-- A unit is executed alike if it is sent alike, where it is sent, and what is dispatched inside is
dispatched alike. -/
theorem executesAlike_of_involved (h : like.Shells shell other) {core : Core} {body : Body Work}
    (hinvolved : ∀ unit, Involves core body unit → DispatchesAlike like shell other unit)
    (hsend : ∀ sent, Departs core body sent → SendsAlike like shell other ⟨core, sent⟩) :
    ExecutesAlike like shell other core body := by
  intro r hr call resuming twin htwin
  have hway := shell.execute_way call core resuming body
  generalize shell.execute call core resuming body = x at hway
  -- the twin goes the same way: what a way asks for is the same of both cores
  have hsame : twin.fidelities = core.fidelities ∧ twin.context = core.context ∧
      twin.name = core.name := by
    obtain ⟨id, -, rfl⟩ := htwin
    exact ⟨rfl, rfl, rfl⟩
  have hsingle : Single twin ↔ Single core := by rw [Single, Single, hsame.1]
  have hprocess : twin.processSignature = core.processSignature := by
    rw [Core.processSignature, Core.processSignature, hsame.1]
  have hhere : runsHere twin = runsHere core := by rw [runsHere, runsHere, hprocess]
  cases hway with
  | own hown =>
    obtain ⟨code, hother, halike⟩ := hown.twin hr htwin
    rw [Way.execute_eq (.own hother)]
    exact halike.bind fun _ _ hended => .pure ⟨.of_core hended _, rfl⟩
  | flow hflow =>
    rw [Way.execute_eq (.flow (hsingle.not.mpr hflow))]
    refine (runFlow_alike htwin fun running twin htwin signature hsignature => ?_).bind
      fun _ _ hended => .pure ⟨.of_core hended _, rfl⟩
    exact runStep_alike h call htwin fun id => hinvolved _ (.step id running hflow hsignature)
  | sent hdeparts =>
    rw [Way.execute_eq (.sent (hdeparts.twin htwin))]
    exact hsend _ hdeparts hr call _ (.of_core htwin _)
  | errand =>
    rw [Way.execute_eq .errand, hsame.2.1]
    exact (hinvolved _ (.errand core.context) like.grade_same call.deeper _
      (.refl h.refl _)).map fun _ _ hended => givenOver_twin (served_twin htwin _) _ hended
  | unordered horder =>
    rw [Way.execute_eq (.unordered horder), hsame.2.2]
    exact (Run.Alike.noteAll _).after (.pure ⟨.of_core htwin _, rfl⟩)
  | job horder hjob =>
    rw [Way.execute_eq (.job horder (hhere.trans hjob))]
    refine (runJob_alike (runners_alike h call.inner fun child hchild scope => ?_) htwin
      resuming).bind fun left right hended => ?_
    · exact hinvolved _ (.child scope (Job.mem_of_mem_arrange hchild))
    · obtain ⟨ended, endeds⟩ := left
      obtain ⟨last, lasts⟩ := right
      obtain ⟨hended, rfl⟩ := hended
      exact .pure ⟨.of_core hended _, rfl⟩
  | block hblock =>
    rw [Way.execute_eq (.block (hhere.trans hblock))]
    refine (runBlock_alike (runners_alike h call.inner fun child hchild scope => ?_) htwin
      resuming).bind fun left right hended => ?_
    · exact hinvolved _ (.child scope hchild)
    · obtain ⟨ended, endeds⟩ := left
      obtain ⟨last, lasts⟩ := right
      obtain ⟨hended, rfl⟩ := hended
      exact .pure ⟨.of_core hended _, rfl⟩

/-- So the units of a kind are executed alike, if those dispatched inside them are of the kind and
they are sent alike. -/
theorem executesAlike (h : like.Shells shell other) (good : Core → Body Work → Prop)
    (hinvolved : ∀ core body unit context, good core body → Involves core body unit →
      good (Core.setStatus { unit.core with context } .running) unit.body)
    (hsend : ∀ core body sent, good core body → Departs core body sent →
      (∀ unit, Involves core body unit → DispatchesAlike like shell other unit) →
        SendsAlike like shell other ⟨core, sent⟩)
    (core : Core) (body : Body Work) (hgood : good core body) :
    ExecutesAlike like shell other core body := by
  induction core, body using execution_induction with
  | step core body ih =>
    have hunits : ∀ unit, Involves core body unit → DispatchesAlike like shell other unit :=
      fun unit hunit => dispatchesAlike_of_executesAlike h fun context =>
        ih unit hunit context (hinvolved core body unit context hgood hunit)
    exact executesAlike_of_involved h hunits fun sent hdeparts =>
      hsend core body sent hgood hdeparts hunits

end Shell
end ServiceShell
