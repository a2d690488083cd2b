import ServiceShell.Proofs.LocalJob
import ServiceShell.Proofs.Lockstep
import ServiceShell.Proofs.Sortable
import ServiceShell.Proofs.Untouched
/-!
Jobs of tasks that are executed in this process. A child keeps to paths of its own, and looks at
nothing but the job's initial entries and what its producers write. Then it does not matter which of
several children that could come next runs first.
-/
namespace ServiceShell

open Json (Value)

variable {σ : Type}

namespace Shell

@[mk_iff]
structure RunsOwn (core : Core) (model : Option (List Procedure)) : Prop where
  single : Single core →
    model.isSome ∨ ∃ signature, core.processSignature = some signature ∧ signature.isLocal
  flow : ¬ Single core → ∀ signature ∈ core.fidelities.selects, signature.isLocal

/-- A task that is executed in this process; its errands count before the task itself. -/
def InProcess (core : Core) (model : Option (List Procedure)) : List Errand → Prop
  | [] => RunsOwn core model
  | errand :: errands => InProcess errand.core errand.model errands

theorem inProcess_congr {core other : Core} (h : core.fidelities = other.fidelities)
    (model : Option (List Procedure)) (errands : List Errand) :
    InProcess core model errands ↔ InProcess other model errands := by
  cases errands with
  | nil =>
    unfold InProcess
    rw [runsOwn_iff, runsOwn_iff, Single, Single, Core.processSignature, Core.processSignature, h]
  | cons errand errands => exact Iff.rfl

end Shell

def Work.InProcess (work : Work) : Prop :=
  match work.body with
  | .task model errands => Shell.InProcess work.core model errands
  | _ => False

/-- What is seen of a unit: its name, entries, status and log. -/
def Work.sight (work : Work) : String × OrderedMap Value × State × List Fault :=
  (work.name, work.core.shown)

def Shell.secluded (config : Config) : Shell Unit := { Shell.finding none with config }

def Work.becomes (config : Config) (call : Call) (task : Work) (scope : Context) :
    String × OrderedMap Value × State × List Fault :=
  ((Visit.mk task scope ⟨(), .empty 0 0⟩).dispatch (.secluded config) call .job "").value.sight

theorem Work.Twin.sight_eq {same : Uuid → Uuid → Prop} {work other : Work}
    (h : work.Twin same other) : other.sight = work.sight := by
  rw [sight, sight, h.name_eq, h.core.shown_eq]

theorem Visit.dispatch_sight_of_runner (shell : Shell σ) (call : Call) (kind : Kind)
    (parent : String) (visit : Visit σ) :
    (visit.dispatch shell call kind parent).value.sight = ((shell.runner call visit.child).dispatch
      (visit.child.core.mapContext (·.withScope visit.scope)) visit.world).value.work.sight := by
  rw [dispatch, Position.dispatch, Shell.Runner.runIn_value, shell.runner_child]
  rfl

theorem Work.InProcess.involved {core : Core} {body : Body Work} {unit : Work}
    (h : Work.InProcess ⟨core, body⟩) (hinvolves : Shell.Involves core body unit)
    (context : Context) :
    Work.InProcess ⟨Core.setStatus { unit.core with context } .running, unit.body⟩ := by
  have hown {running : Core} {signature : Signature}
      (hsignature : running.processSignature = some signature) (hlocal : signature.isLocal)
      (hsingle : Shell.Single running) : Shell.RunsOwn running none :=
    ⟨fun _ => .inr ⟨signature, hsignature, hlocal⟩, fun hflow => absurd hsingle hflow⟩
  cases hinvolves with
  | step id other hflow hsignature =>
    have hruns : Shell.RunsOwn core _ := h
    have hlocal := hruns.flow hflow _ hsignature
    exact hown rfl hlocal (Nat.le_refl 1)
  | standIn id other signature operation => exact hown rfl rfl (Nat.le_refl 1)
  | @errand model errand errands =>
    exact (Shell.inProcess_congr (by rfl) errand.model errands).mp h
  | child scope hchild =>
    cases body with
    | task => cases hchild
    | _ => cases h

theorem Work.InProcess.not_departs {core : Core} {body sent : Body Work}
    (h : Work.InProcess ⟨core, body⟩) : ¬ Shell.Departs core body sent := by
  intro hdeparts
  cases hdeparts with
  | task hsingle htravels =>
    have hruns : Shell.RunsOwn core none := h
    obtain hmodel | ⟨signature, hsignature, hlocal⟩ := hruns.single hsingle
    · cases hmodel
    · rw [Signature.isLocal, htravels signature hsignature] at hlocal
      cases hlocal
  | _ => cases h

/-- No collaborator has a say in it. -/
theorem Visit.dispatch_sight (shell : Shell σ) (call : Call) (kind : Kind) (parent : String)
    (visit : Visit σ) (htask : visit.child.InProcess) :
    (visit.dispatch shell call kind parent).value.sight =
      visit.child.becomes shell.config call visit.scope := by
  obtain ⟨⟨core, body⟩, scope, world⟩ := visit
  cases body with
  | task model errands =>
    let reference : Shell Unit := .secluded shell.config
    let like : Likeness σ Unit := ⟨fun _ _ => True, fun _ _ => True⟩
    have hshells : like.Shells shell reference :=
      ⟨rfl, fun _ => trivial, fun _ _ _ => ⟨trivial, trivial, .nil⟩⟩
    let entered : Work := ⟨core.mapContext (·.withScope scope), .task model errands⟩
    have hdispatches : Shell.DispatchesAlike like shell reference entered := by
      refine Shell.dispatchesAlike_of_executesAlike hshells fun context => ?_
      refine Shell.executesAlike hshells (fun core body => Work.InProcess ⟨core, body⟩)
        (fun _ _ _ context hgood hinvolves => hgood.involved hinvolves context)
        (fun _ _ _ hgood hdeparts => absurd hdeparts hgood.not_departs) _ _ ?_
      exact (Shell.inProcess_congr (by rfl) model errands).mp htask
    have hsame := hdispatches like.grade_same call entered (.refl hshells.refl entered)
    rw [Visit.dispatch_sight_of_runner, Work.becomes, Visit.dispatch_sight_of_runner]
    rw [Shell.runner_dispatchReady, Shell.runner_dispatchReady]
    exact (hsame world ⟨(), .empty 0 0⟩ trivial).value.work.sight_eq.symm
  | _ => cases htask

theorem Work.becomes_own {config : Config} {call : Call}
    (hdepth : call.depth ≤ config.maxDelegationDepth) {task : Work}
    (hbody : task.body = .task none []) (hdependers : task.core.dependers = [])
    {signature : Signature} (hselects : task.core.fidelities.selects = [signature]) (hprocess : signature.role = .process)
    {operation : Operation} (htarget : signature.target = some operation) (scope : Context) :
    task.becomes config call scope = (task.name, (Shell.operated
      ((task.core.mapContext (·.withScope scope)).setStatus .running) signature
        operation).finish.shown) := by
  have hended := (Shell.secluded config).runner_dispatch_own hdepth hbody
    (task.core.mapContext (·.withScope scope)) hdependers hselects hprocess htarget
    ⟨(), .empty 0 0⟩
  have hname (core : Core) : (Shell.operated core signature operation).finish.name = core.name := by
    unfold Shell.operated
    obtain ⟨context, fault⟩ := operation signature.selector core.context
    cases fault <;> rfl
  rw [becomes, Visit.dispatch_sight_of_runner]
  exact (congrArg (fun core => (core.name, core.shown)) hended).trans
    (congrArg (·, _) (hname _))

/-- The paths of a child: those it has entries at, and those it writes in any scope of the job. -/
def Work.Owns (config : Config) (call : Call) (context : Context) (child : Work) (path : String) :
    Prop :=
  path ∈ child.core.context.entries.keys ∨
    ∃ entries, path ∈ (child.becomes config call { context with entries }).2.1.keys

structure Job.Independent (config : Config) (call : Call) (context : Context)
    (dependencies : List Dependency) (children : List Work) : Prop where
  inProcess : ∀ child ∈ children, child.InProcess
  /-- What a child owns is not among the job's entries, and no other child owns it. -/
  apart : ∀ child ∈ children, ∀ path, child.Owns config call context path →
    path ∉ context.entries.keys ∧
      ∀ other ∈ children, other.Owns config call context path → other.name = child.name
  /-- A child does not look at what others own than its producers. -/
  reads : ∀ child ∈ children, ∀ entries others : OrderedMap Value,
    (∀ path, (∀ other ∈ children, other.Owns config call context path →
        other.name = child.name ∨ ⟨child.name, other.name⟩ ∈ dependencies) →
      entries.get? path = others.get? path) →
    child.becomes config call { context with entries } =
      child.becomes config call { context with entries := others }

section Merging
variable {run : Visit σ → Outcome σ Work} {entries : OrderedMap Value}
  {visits others : List (Visit σ)} {path : String}

def Visit.wrote (run : Visit σ → Outcome σ Work) (path : String) (visit : Visit σ) : Option Value :=
  (run visit).value.core.context.entries.get? path

theorem Visit.get?_overlay (visit : Visit σ) :
    (entries.overlay (run visit).value.core.context.entries).get? path =
      (visit.wrote run path).or (entries.get? path) :=
  OrderedMap.get?_overlay ..

theorem merged_get?_of_unwritten (h : ∀ visit ∈ visits, visit.wrote run path = none) :
    (merged run entries visits).get? path = entries.get? path := by
  induction visits generalizing entries with
  | nil => rfl
  | cons visit rest ih =>
    obtain ⟨hvisit, hrest⟩ := List.forall_mem_cons.mp h
    refine (ih hrest).trans ?_
    rw [visit.get?_overlay, hvisit, Option.none_or]

theorem merged_get?_of_written {value : Value}
    (h : ∀ visit ∈ visits, ∀ other, visit.wrote run path = some other → other = value)
    (hwritten : (∃ visit ∈ visits, visit.wrote run path = some value) ∨
      entries.get? path = some value) :
    (merged run entries visits).get? path = some value := by
  induction visits generalizing entries with
  | nil => exact hwritten.resolve_left (by simp)
  | cons visit rest ih =>
    obtain ⟨hvisit, hrest⟩ := List.forall_mem_cons.mp h
    refine ih hrest ?_
    rw [visit.get?_overlay]
    cases hwrote : visit.wrote run path with
    | some other =>
      rw [hvisit other hwrote]
      exact .inr rfl
    | none =>
      rw [Option.none_or]
      refine hwritten.imp_left fun ⟨writer, hwriter, hvalue⟩ => ?_
      obtain rfl | hwriter := List.mem_cons.mp hwriter
      · rw [hwrote] at hvalue
        cases hvalue
      · exact ⟨writer, hwriter, hvalue⟩

/-- Where only one value is written at a path, the order of the visits does not count. -/
theorem merged_get?_congr (hunique : ∀ visit ∈ visits, ∀ writer ∈ visits, ∀ value other,
      visit.wrote run path = some value → writer.wrote run path = some other → other = value)
    (hsame : ∀ value, (∃ visit ∈ visits, visit.wrote run path = some value) ↔
      ∃ visit ∈ others, visit.wrote run path = some value) :
    (merged run entries visits).get? path = (merged run entries others).get? path := by
  by_cases hwritten : ∃ value, ∃ visit ∈ visits, visit.wrote run path = some value
  · obtain ⟨value, visit, hvisit, hvalue⟩ := hwritten
    have hall : ∀ writer ∈ visits, ∀ other, writer.wrote run path = some other → other = value :=
      fun writer hwriter other => hunique visit hvisit writer hwriter value other hvalue
    rw [merged_get?_of_written hall (.inl ⟨visit, hvisit, hvalue⟩)]
    refine (merged_get?_of_written (fun writer hwriter other hother => ?_)
      (.inl ((hsame value).mp ⟨visit, hvisit, hvalue⟩))).symm
    obtain ⟨first, hfirst, hsome⟩ := (hsame other).mpr ⟨writer, hwriter, hother⟩
    exact hall first hfirst other hsome
  · have hnone {list : List (Visit σ)}
        (hlist : ∀ value, (∃ visit ∈ list, visit.wrote run path = some value) →
          ∃ visit ∈ visits, visit.wrote run path = some value) :
        ∀ visit ∈ list, visit.wrote run path = none := fun visit hvisit =>
      Option.eq_none_iff_forall_ne_some.mpr fun value hvalue =>
        hwritten ⟨value, hlist value ⟨visit, hvisit, hvalue⟩⟩
    rw [merged_get?_of_unwritten (hnone fun _ h => h),
      merged_get?_of_unwritten (hnone fun value => (hsame value).mpr)]

end Merging

theorem Step.mem_visits {steps : List (Step σ)} {visit : Visit σ} :
    visit ∈ steps.filterMap Step.visit? ↔ .visited visit ∈ steps := by
  refine List.mem_filterMap.trans ⟨fun ⟨step, hstep, hvisit⟩ => ?_, fun h => ⟨_, h, rfl⟩⟩
  cases step with
  | left child => cases hvisit
  | visited other => exact Option.some.inj hvisit ▸ hstep

theorem failures_eq_nil_iff {run : Visit σ → Outcome σ Work} {steps : List (Step σ)} :
    failures run steps = [] ↔ ∀ visit, .visited visit ∈ steps →
      ¬ (run visit).value.core.hasFailed := by
  rw [failures, List.filter_eq_nil_iff, List.forall_mem_map]
  exact forall_congr' fun visit => imp_congr_left Step.mem_visits

structure Orderly (run : Visit σ → Outcome σ Work) (resuming : Bool) (context : Context)
    (dependencies : List Dependency) (children : List Work) (steps : List (Step σ)) : Prop where
  arranged : Job.Arranged dependencies children (steps.map Step.child)
  leftOut : ∀ step ∈ steps, step.child.LeftOut resuming ↔ step.visit? = none
  scope : ∀ earlier visit rest, steps = earlier ++ .visited visit :: rest →
    visit.scope =
      { context with entries := merged run context.entries (earlier.filterMap Step.visit?) }

namespace Orderly
variable {run : Visit σ → Outcome σ Work} {config : Config} {call : Call} {resuming : Bool}
  {context : Context} {dependencies : List Dependency} {children : List Work}
  {steps others : List (Step σ)}

theorem of_through {world : World σ} {arranged : List Work} {outcome : Outcome σ Shell.Children}
    (h : Through run resuming false context world arranged steps outcome)
    (harranged : Job.Arranged dependencies children arranged) :
    Orderly run resuming context dependencies children steps where
  arranged := h.children ▸ harranged
  leftOut := h.course.leftOut_iff
  scope := by
    rintro earlier visit rest rfl
    refine (h.course.follows.1 (earlier.filterMap Step.visit?) visit
      (rest.filterMap Step.visit?) ?_).1
    rw [List.filterMap_append, List.filterMap_cons]
    rfl

theorem eq_of_name (h : Orderly run resuming context dependencies children steps)
    {step other : Step σ} (hstep : step ∈ steps) (hother : other ∈ steps)
    (hname : step.child.name = other.child.name) : step = other := by
  have hnodup : (steps.map fun step => step.child.name).Nodup := by
    have hnames := h.arranged.nodup
    rwa [List.map_map] at hnames
  exact List.inj_on_of_nodup_map hnodup hstep hother hname

theorem child_eq (h : Orderly run resuming context dependencies children steps)
    (hother : Orderly run resuming context dependencies children others) {step other : Step σ}
    (hstep : step ∈ steps) (hlast : other ∈ others)
    (hname : other.child.name = step.child.name) : other.child = step.child := by
  have hnodup := (h.arranged.perm.map Work.name).nodup_iff.mp h.arranged.nodup
  have hmem := h.arranged.perm.mem_iff.mp (List.mem_map_of_mem hstep)
  have hmore := hother.arranged.perm.mem_iff.mp (List.mem_map_of_mem hlast)
  exact List.inj_on_of_nodup_map hnodup hmore hmem hname

/-- The turn of a child comes after those of its producers, and only once. -/
theorem earlier_names {earlier rest : List (Step σ)} {step : Step σ}
    (h : Orderly run resuming context dependencies children (earlier ++ step :: rest))
    {name : String}
    (hname : name = step.child.name ∨ ⟨step.child.name, name⟩ ∈ dependencies) :
    name ∈ earlier.map (·.child.name) ↔ ⟨step.child.name, name⟩ ∈ dependencies := by
  have hnodup := h.arranged.nodup
  have hinOrder := h.arranged.inOrder
  simp only [List.map_map, List.map_append, List.map_cons, Function.comp_def] at hnodup hinOrder
  refine ⟨fun hearlier => hname.resolve_left fun hsame => ?_, fun hneeds => hinOrder.before hneeds⟩
  exact (List.nodup_append.mp hnodup).2.2 name hearlier name (hsame ▸ List.mem_cons_self ..) rfl

theorem names_perm (h : Orderly run resuming context dependencies children steps)
    (hother : Orderly run resuming context dependencies children others) :
    (steps.map (·.child.name)).Perm (others.map (·.child.name)) := by
  have hnames := (h.arranged.perm.trans hother.arranged.perm.symm).map Work.name
  rwa [List.map_map, List.map_map] at hnames

theorem counterpart (h : Orderly run resuming context dependencies children steps)
    (hother : Orderly run resuming context dependencies children others) {visit : Visit σ}
    (hvisit : .visited visit ∈ steps) {last : List (Step σ)} (hlast : last ⊆ others)
    (hname : visit.child.name ∈ last.map (·.child.name)) :
    ∃ other, .visited other ∈ last ∧ visit.child = other.child := by
  obtain ⟨step, hstep, hname⟩ := List.mem_map.mp hname
  have hchild := h.child_eq hother hvisit (hlast hstep) hname
  cases step with
  | left child =>
    have hskip := (hother.leftOut _ (hlast hstep)).mpr rfl
    rw [hchild] at hskip
    cases (h.leftOut _ hvisit).mp hskip
  | visited other => exact ⟨other, hstep, hchild.symm⟩

theorem mem_children (h : Orderly run resuming context dependencies children steps) {step : Step σ}
    (hstep : step ∈ steps) : step.child ∈ children :=
  h.arranged.perm.mem_iff.mp (List.mem_map_of_mem hstep)

section Independent
variable (hindependent : Job.Independent config call context dependencies children)
  (hrun : ∀ visit : Visit σ, visit.child.InProcess →
    (run visit).value.sight = visit.child.becomes config call visit.scope)
  (h : Orderly run resuming context dependencies children steps)
  (hother : Orderly run resuming context dependencies children others)
include hindependent hrun h

theorem sight_eq {visit : Visit σ} (hvisit : .visited visit ∈ steps) :
    (run visit).value.sight = visit.child.becomes config call visit.scope :=
  hrun visit (hindependent.inProcess _ (h.mem_children hvisit))

theorem owns {visit : Visit σ} (hvisit : .visited visit ∈ steps) {path : String} {value : Value}
    (hwrote : visit.wrote run path = some value) :
    visit.child.Owns config call context path := by
  have hsight := h.sight_eq hindependent hrun hvisit
  obtain ⟨earlier, rest, hsteps⟩ := List.append_of_mem hvisit
  rw [h.scope earlier visit rest hsteps] at hsight
  refine .inr ⟨merged run context.entries (earlier.filterMap Step.visit?), ?_⟩
  rw [← hsight, OrderedMap.mem_keys_iff]
  exact Option.isSome_of_eq_some hwrote

include hother

/-- What has been written in one order has been written in the other one as well. -/
theorem written {before last : List (Step σ)} (hbefore : before ⊆ steps) (hlast : last ⊆ others)
    (hsame : ∀ step ∈ before, ∀ other ∈ last, step.child = other.child →
      (step.ended run).sight = (other.ended run).sight) {path : String}
    (hturn : ∀ child ∈ children, child.Owns config call context path →
      child.name ∈ before.map (·.child.name) → child.name ∈ last.map (·.child.name)) {value : Value}
    (hwritten : ∃ visit ∈ before.filterMap Step.visit?, visit.wrote run path = some value) :
    ∃ visit ∈ last.filterMap Step.visit?, visit.wrote run path = some value := by
  obtain ⟨visit, hvisit, hwrote⟩ := hwritten
  have hvisit : .visited visit ∈ before := Step.mem_visits.mp hvisit
  have howns := h.owns hindependent hrun (hbefore hvisit) hwrote
  have hname := hturn _ (h.mem_children (hbefore hvisit)) howns
    (List.mem_map_of_mem (f := fun step : Step σ => step.child.name) hvisit)
  obtain ⟨writer, hwriter, hchild⟩ := h.counterpart hother (hbefore hvisit) hlast hname
  refine ⟨writer, Step.mem_visits.mpr hwriter, ?_⟩
  rw [← hwrote]
  exact (congrArg (fun sight => sight.2.1.get? path) (hsame _ hvisit _ hwriter hchild)).symm

theorem merged_get? {before last : List (Step σ)} (hbefore : before ⊆ steps) (hlast : last ⊆ others)
    (hsame : ∀ step ∈ before, ∀ other ∈ last, step.child = other.child →
      (step.ended run).sight = (other.ended run).sight) {path : String}
    (hturn : ∀ child ∈ children, child.Owns config call context path →
      (child.name ∈ before.map (·.child.name) ↔ child.name ∈ last.map (·.child.name))) :
    (merged run context.entries (before.filterMap Step.visit?)).get? path =
      (merged run context.entries (last.filterMap Step.visit?)).get? path := by
  refine merged_get?_congr (fun visit hvisit writer hwriter value other hvalue hwrote => ?_)
    fun value => ⟨?_, ?_⟩
  · have hvisit := hbefore (Step.mem_visits.mp hvisit)
    have hwriter := hbefore (Step.mem_visits.mp hwriter)
    have hname := (hindependent.apart _ (h.mem_children hvisit) path
      (h.owns hindependent hrun hvisit hvalue)).2 _ (h.mem_children hwriter)
      (h.owns hindependent hrun hwriter hwrote)
    obtain rfl : writer = visit := Step.visited.inj (h.eq_of_name hwriter hvisit hname)
    exact Option.some.inj (hwrote.symm.trans hvalue)
  · exact h.written hindependent hrun hother hbefore hlast hsame fun child hchild howns =>
      (hturn child hchild howns).mp
  · exact hother.written hindependent hrun h hlast hbefore
      (fun step hstep other hlast heq => (hsame other hlast step hstep heq.symm).symm)
      fun child hchild howns => (hturn child hchild howns).mpr

/-- Every child ends the same way in both orders. -/
theorem ended_sight : ∀ step ∈ steps, ∀ other ∈ others, step.child = other.child →
    (step.ended run).sight = (other.ended run).sight := by
  suffices hall : ∀ before rest, steps = before ++ rest → ∀ step ∈ before, ∀ other ∈ others,
      step.child = other.child → (step.ended run).sight = (other.ended run).sight from
    hall steps [] (List.append_nil steps).symm
  intro before
  -- the children in front of a child end the same way, and it looks at nothing else
  induction before using List.reverseRecOn with
  | nil => simp
  | append_singleton before last ih =>
    intro rest hsteps step hstep other hlast heq
    rw [List.append_assoc, List.singleton_append] at hsteps
    obtain hstep | hstep := List.mem_append.mp hstep
    · exact ih _ hsteps step hstep other hlast heq
    obtain rfl := List.mem_singleton.mp hstep
    have hstep : step ∈ steps := by simp [hsteps]
    have hskips : step.visit? = none ↔ other.visit? = none := by
      rw [← h.leftOut _ hstep, ← hother.leftOut _ hlast, heq]
    obtain ⟨earlier, later, hothers⟩ := List.append_of_mem hlast
    cases step with
    | left child =>
      cases other with
      | left other => exact congrArg Work.sight heq
      | visited other => cases hskips.mp rfl
    | visited visit =>
      cases other with
      | left other => cases hskips.mpr rfl
      | visited other =>
        have hchild : visit.child = other.child := heq
        refine (h.sight_eq hindependent hrun hstep).trans (Eq.trans ?_
          (hother.sight_eq hindependent hrun hlast).symm)
        rw [h.scope before visit rest hsteps, hother.scope earlier other later hothers, ← hchild]
        refine hindependent.reads visit.child (h.mem_children hstep) _ _ fun path howners => ?_
        subst hsteps hothers
        refine h.merged_get? hindependent hrun hother (List.subset_append_left ..)
          (List.subset_append_left ..) (fun step hstep last hlast =>
            ih _ rfl step hstep last (List.mem_append_left _ hlast)) fun owner howner howns => ?_
        have hname := howners owner howner howns
        have hsame : (Step.visited other).child = (Step.visited visit).child := hchild.symm
        rw [h.earlier_names hname, hother.earlier_names (hsame ▸ hname), hsame]

theorem merged_get?_end (path : String) :
    (merged run context.entries (steps.filterMap Step.visit?)).get? path =
      (merged run context.entries (others.filterMap Step.visit?)).get? path :=
  h.merged_get? hindependent hrun hother (List.Subset.refl _) (List.Subset.refl _)
    (h.ended_sight hindependent hrun hother) fun _ _ _ => (h.names_perm hother).mem_iff

theorem failures_eq_nil (hnone : failures run others = []) : failures run steps = [] := by
  rw [failures_eq_nil_iff] at hnone ⊢
  intro visit hvisit
  have hname := (h.names_perm hother).mem_iff.mp
    (List.mem_map_of_mem (f := fun step : Step σ => step.child.name) hvisit)
  obtain ⟨last, hlast, hchild⟩ := h.counterpart hother hvisit (List.Subset.refl _) hname
  have hsight := h.ended_sight hindependent hrun hother _ hvisit _ hlast hchild
  have hstatus : (run visit).value.core.status = (run last).value.core.status :=
    congrArg (fun sight => sight.2.2.1) hsight
  have hlast := hnone last hlast
  rwa [Core.hasFailed, ← hstatus] at hlast

theorem sights_perm : (steps.map fun step => (step.ended run).sight).Perm
    (others.map fun step => (step.ended run).sight) := by
  let sightOf (name : String) := (steps.find? fun step => step.child.name = name).map fun step =>
    (step.ended run).sight
  have hsteps : ∀ step ∈ steps, sightOf step.child.name = some (step.ended run).sight := by
    intro step hstep
    have hfound : steps.find? (fun other => other.child.name = step.child.name) = some step := by
      cases hfind : steps.find? fun other => other.child.name = step.child.name with
      | none => simpa using List.find?_eq_none.mp hfind step hstep
      | some other =>
        have hname : other.child.name = step.child.name := by simpa using List.find?_some hfind
        rw [h.eq_of_name (List.mem_of_find?_eq_some hfind) hstep hname]
    exact congrArg (Option.map _) hfound
  have hothers : ∀ other ∈ others, sightOf other.child.name = some (other.ended run).sight := by
    intro other hlast
    obtain ⟨step, hstep, hname⟩ := List.mem_map.mp ((h.names_perm hother).mem_iff.mpr
      (List.mem_map_of_mem (f := fun step : Step σ => step.child.name) hlast))
    have hchild := h.child_eq hother hstep hlast hname.symm
    rw [← h.ended_sight hindependent hrun hother step hstep other hlast hchild.symm, hchild]
    exact hsteps step hstep
  have hperm := (h.names_perm hother).map sightOf
  simp only [List.map_map, Function.comp_def] at hperm
  rw [List.map_congr_left hsteps, List.map_congr_left hothers] at hperm
  refine (List.map_perm_map_iff (Option.some_injective _)).mp ?_
  rwa [List.map_map, List.map_map]

end Independent
end Orderly

/-- Two jobs have the same values at the same paths, the same state, and children of which the same
is seen. -/
structure Work.EndsLike (work other : Work) : Prop where
  entries : ∀ path, other.core.context.entries.get? path = work.core.context.entries.get? path
  status : other.core.status = work.core.status
  children : (other.children.map Work.sight).Perm (work.children.map Work.sight)

theorem Work.EndsLike.leave {work other : Work} (h : work.EndsLike other) (position : Position) :
    (position.leave work).EndsLike (position.leave other) := by
  refine ⟨fun path => ?_, ?_, ?_⟩
  · rw [position.leave_entries, position.leave_entries, h.entries]
  · rw [position.leave_status, position.leave_status, h.status]
  · rw [position.leave_children, position.leave_children]
    exact h.children

theorem Job.OrderError.status (error : OrderError) (job : String) :
    State.ofFault (error.toDispatchError job).asRoutine.toFault = .failed := by
  cases error <;> rfl

namespace Position

theorem enter_job (position : Position) (core : Core) :
    (∃ error, ∀ dependencies children,
      position.enter ⟨core, .job dependencies children⟩ = .error error) ∨
    ∃ ready change, ∀ dependencies children, position.enter ⟨core, .job dependencies children⟩ =
      .ok ⟨ready, .job dependencies (children.map change)⟩ := by
  cases position with
  | child call kind parent scope =>
    exact .inr ⟨core.mapContext (·.withScope scope), id, fun _ children => by
      rw [List.map_id]
      rfl⟩
  | root txn provider args =>
    have hselect (body : Body Work) : Shell.selectFidelity args ⟨core, body⟩ =
      Shell.selectFidelity args ⟨core, .job [] []⟩ := rfl
    cases hfound : Shell.selectFidelity args ⟨core, .job [] []⟩ with
    | error e =>
      refine .inl ⟨e, fun dependencies children => ?_⟩
      rw [enter, Shell.prepare, hselect, hfound]
      rfl
    | ok fidelities =>
      let filled : Core :=
        (Work.substitute args ⟨core.mapControl ({ · with fidelities }), .job [] []⟩).core
      have hready (body : Body Work) : enter (root txn provider args) ⟨core, body⟩ =
          .ok (if filled.control.initializable then Work.reset args ⟨filled, body⟩
            else ⟨filled, body⟩) := by
        rw [enter, Shell.prepare, hselect, hfound]
        rfl
      by_cases hreset : filled.control.initializable ∧ filled.control.state = .initial
      · refine .inr ⟨Work.resetCore args ⟨filled, .job [] []⟩, Work.mapUnits (Work.resetCore args),
          fun dependencies children => ?_⟩
        rw [hready, if_pos hreset.1, Work.reset, if_pos hreset.2]
        simp only [Work.mapUnits, Work.mapBody, Work.mapChildren_eq_map]
        rfl
      · refine .inr ⟨filled, id, fun dependencies children => ?_⟩
        rw [hready, List.map_id]
        split
        · rename_i hinitializable
          rw [Work.reset, if_neg fun hinitial => hreset ⟨hinitializable, hinitial⟩]
        · rfl

section Redeclared
variable (position : Position) (shell : Shell σ) {ready : Core} {job redeclared : Work}
  {dependencies declared : List Dependency} {children reordered : List Work}
  (hentered : position.enter job = .ok ⟨ready, .job dependencies children⟩)
  (hother : position.enter redeclared = .ok ⟨ready, .job declared reordered⟩)
  (hchildren : children.Perm reordered) (hdependencies : dependencies.Perm declared)
  (hdepth : position.call.depth ≤ shell.config.maxDelegationDepth)
include hentered hother hchildren hdependencies hdepth

/-- The two jobs come to their children, which are ordered in two ways. -/
theorem dispatch_ordered {context : Context} {positions others : List Nat}
    (hrealized : Depender.realizeAll position.call.args ready.dependers ready.context =
      (context, none)) (hhere : Shell.runsHere ready)
    (hindependent : Job.Independent shell.config position.call.inner context dependencies children)
    (horder : Job.order children dependencies = .ok positions)
    (hlast : Job.order reordered declared = .ok others) (world other : World σ) :
    (position.dispatch shell job world).value.EndsLike
      (position.dispatch shell redeclared other).value := by
  obtain ⟨steps, run, hsteps, -, hvalue⟩ :=
    position.dispatch_job shell hentered hdepth hrealized hhere horder world
  obtain ⟨lasts, last, hlasts, -, hother⟩ :=
    position.dispatch_job shell hother hdepth hrealized hhere hlast other
  have hrun := Visit.dispatch_sight shell position.call.inner .job ready.name
  have hfirst := Orderly.of_through hsteps (Job.order_ok horder)
  have hsecond := Orderly.of_through hlasts
    ((Job.order_ok hlast).redeclare hchildren hdependencies)
  have hfailed : last.value.failed.isEmpty = run.value.failed.isEmpty := by
    rw [Bool.eq_iff_iff, List.isEmpty_iff, List.isEmpty_iff, hsteps.failed, hlasts.failed]
    exact ⟨hfirst.failures_eq_nil hindependent hrun hsecond,
      hsecond.failures_eq_nil hindependent hrun hfirst⟩
  rw [hvalue, hother]
  refine Work.EndsLike.leave ⟨fun path => ?_, ?_, ?_⟩ position
  · have hend := hfirst.merged_get?_end hindependent hrun hsecond path
    have hrunend := hsteps.course.follows.2.1
    have hlastend := hlasts.course.follows.2.1
    change last.value.context.entries.get? path = run.value.context.entries.get? path
    rw [hrunend, hlastend]
    exact hend.symm
  · change (if last.value.failed.isEmpty then State.done else .failed) =
      if run.value.failed.isEmpty then State.done else .failed
    rw [hfailed]
  · change (last.value.children.map Work.sight).Perm (run.value.children.map Work.sight)
    rw [hsteps.ended, hlasts.ended, List.map_map, List.map_map]
    exact (hfirst.sights_perm hindependent hrun hsecond).symm

/-- The two jobs do not come to their children, or these cannot be ordered. -/
theorem dispatch_refused (hrefused : ∀ context,
      Depender.realizeAll position.call.args ready.dependers ready.context = (context, none) →
        ∀ positions, Job.order children dependencies ≠ .ok positions) (world other : World σ) :
    (position.dispatch shell job world).value.EndsLike
      (position.dispatch shell redeclared other).value := by
  have hsights := (hchildren.map Work.sight).symm
  rcases hrealized : Depender.realizeAll position.call.args ready.dependers ready.context with
    ⟨context, _ | fault⟩
  · cases horder : Job.order children dependencies with
    | ok positions => exact absurd horder (hrefused context hrealized positions)
    | error e =>
      cases hlast : Job.order reordered declared with
      | ok positions =>
        obtain ⟨positions, hok⟩ := Job.order_ok_perm hlast hchildren.symm hdependencies.symm
        exact absurd hok (hrefused context hrealized positions)
      | error last =>
        rw [position.dispatch_unordered_value shell hentered hdepth hrealized horder,
          position.dispatch_unordered_value shell hother hdepth hrealized hlast]
        refine Work.EndsLike.leave ?_ position
        exact ⟨fun _ => rfl, (last.status ready.name).trans (e.status ready.name).symm, hsights⟩
  · rw [position.dispatch_stopped_value shell hentered hdepth hrealized,
      position.dispatch_stopped_value shell hother hdepth hrealized]
    refine Work.EndsLike.leave ?_ position
    exact ⟨fun _ => rfl, rfl, hsights⟩

end Redeclared

/-- A job of tasks that are executed in this process, and that do not get in each other's way, ends
alike however its children and dependencies are declared. This counts only where the job comes to
its children. -/
theorem dispatch_redeclared (position : Position) (shell : Shell σ) {core : Core}
    {dependencies declared : List Dependency} {children reordered : List Work}
    (hdependencies : dependencies.Perm declared) (hchildren : children.Perm reordered)
    (hdepth : position.call.depth ≤ shell.config.maxDelegationDepth)
    (hindependent : ∀ ready prepared context,
      position.enter ⟨core, .job dependencies children⟩ = .ok ⟨ready, .job dependencies prepared⟩ →
        Depender.realizeAll position.call.args ready.dependers ready.context = (context, none) →
          Shell.runsHere ready ∧ Job.Independent shell.config position.call.inner context
            dependencies prepared) (world other : World σ) :
    (position.dispatch shell ⟨core, .job dependencies children⟩ world).value.EndsLike
      (position.dispatch shell ⟨core, .job declared reordered⟩ other).value := by
  obtain ⟨error, hentered⟩ | ⟨ready, change, hentered⟩ := position.enter_job core
  · rw [position.dispatch_unprepared_value shell (hentered dependencies children),
      position.dispatch_unprepared_value shell (hentered declared reordered)]
    exact ⟨fun _ => rfl, rfl, (hchildren.map Work.sight).symm⟩
  have hprepared : (children.map change).Perm (reordered.map change) := hchildren.map change
  have hfirst := hentered dependencies children
  have hsecond := hentered declared reordered
  by_cases hcomes : ∃ context positions,
      Depender.realizeAll position.call.args ready.dependers ready.context = (context, none) ∧
        Job.order (children.map change) dependencies = .ok positions
  · obtain ⟨context, positions, hrealized, horder⟩ := hcomes
    obtain ⟨hhere, hindependent⟩ := hindependent ready _ context hfirst hrealized
    obtain ⟨others, hother⟩ := Job.order_ok_perm horder hprepared hdependencies
    exact position.dispatch_ordered shell hfirst hsecond hprepared hdependencies hdepth hrealized
      hhere hindependent horder hother world other
  · exact position.dispatch_refused shell hfirst hsecond hprepared hdependencies hdepth
      (fun context hrealized positions horder => hcomes ⟨context, positions, hrealized, horder⟩)
      world other

def part (id : Nat) (name path : String) (make : Context → Int) (failure : Option String) : Work :=
  .ofSignature (.ofNat id) name (.object "make" name fun _ context =>
    (context.put path (.ofInt (make context)), failure.map .exception))

theorem part_becomes (id : Nat) (name path : String) (make : Context → Int)
    (failure : Option String) (scope : Context) :
    (part id name path make failure).becomes .default ⟨0, none, none, []⟩ scope =
      (name, OrderedMap.empty.put path (.ofInt (make ((Context.named name).withScope scope))),
        if failure.isSome then .failed else .done, (failure.map Fault.exception).toList) := by
  rw [Work.becomes_own (Nat.zero_le _) rfl rfl rfl rfl rfl]
  cases failure <;> rfl

def furnish (children : List Work) : Work :=
  ⟨Core.fresh (.ofNat 1) "furnish", .job [⟨"join", "cut"⟩] children⟩

def cut : Work := part 2 "cut" "board" (fun _ => 1) none
def paint : Work := part 3 "paint" "coat" (fun _ => 2) (some "out of paint")
def join : Work := part 4 "join" "table" (fun context => context.int "board" + 1) none

theorem eq_of_part_owns {id : Nat} {name path other : String} {make : Context → Int}
    {failure : Option String} {context : Context}
    (h : (part id name path make failure).Owns .default ⟨0, none, none, []⟩ context other) :
    other = path := by
  obtain hentry | ⟨entries, hwritten⟩ := h
  · cases hentry
  · rw [part_becomes, OrderedMap.keys_put] at hwritten
    exact List.mem_singleton.mp hwritten

theorem board_congr {entries others : OrderedMap Value}
    (h : entries.get? "board" = others.get? "board") :
    ((Context.named "join").withScope { Context.named "furnish" with entries }).int "board" =
      ((Context.named "join").withScope { Context.named "furnish" with entries := others }).int
        "board" := by
  have hplain : splits "board".toList = [] := by decide
  have hlookup (entries : OrderedMap Value) : lookup entries "board" = entries.get? "board" := by
    rw [lookup, hplain]
    cases entries.get? "board" <;> rfl
  have hget (entries : OrderedMap Value) : ((Context.named "join").withScope
      { Context.named "furnish" with entries }).get? "board" = entries.get? "board" := by
    rw [← hlookup]
    exact List.findSome?_singleton
  rw [Context.int, Context.int, hget, hget, h]

theorem furnish_owns {child : Work} (hchild : child ∈ [cut, paint, join]) {context : Context}
    {path : String} (howns : child.Owns .default ⟨0, none, none, []⟩ context path) :
    (child.name, path) ∈ [("cut", "board"), ("paint", "coat"), ("join", "table")] := by
  simp only [List.mem_cons, List.not_mem_nil, or_false] at hchild
  obtain rfl | rfl | rfl := hchild <;> obtain rfl := eq_of_part_owns howns <;> decide

theorem furnish_independent : Job.Independent .default ⟨0, none, none, []⟩ (.named "furnish")
    [⟨"join", "cut"⟩] [cut, paint, join] where
  inProcess := by
    have hown (id : Nat) (name path : String) (make : Context → Int) (failure : Option String) :
        (part id name path make failure).InProcess :=
      ⟨fun _ => .inr ⟨_, rfl, rfl⟩, fun hflow => absurd (Nat.le_refl 1) hflow⟩
    simp only [List.forall_mem_cons]
    exact ⟨hown .., hown .., hown .., by simp⟩
  apart child hchild path howns := by
    refine ⟨List.not_mem_nil, fun other hother hothers => ?_⟩
    have hpath := furnish_owns hchild howns
    have hother := furnish_owns hother hothers
    generalize child.name = name at hpath ⊢
    generalize other.name = last at hother ⊢
    simp only [List.mem_cons, Prod.mk.injEq, List.not_mem_nil, or_false] at hpath hother
    obtain ⟨rfl, rfl⟩ | ⟨rfl, rfl⟩ | ⟨rfl, rfl⟩ := hpath <;> simpa using hother
  reads child hchild entries others hagree := by
    simp only [List.mem_cons, List.not_mem_nil, or_false] at hchild
    obtain rfl | rfl | rfl := hchild
    · rw [cut, part_becomes, part_becomes]
    · rw [paint, part_becomes, part_becomes]
    · have hboard := hagree "board" fun other hother howns => by
        have hmem := furnish_owns hother howns
        have hname : other.name = "cut" := by simpa using hmem
        exact .inr (by rw [hname]; decide)
      rw [join, part_becomes, part_becomes, board_congr hboard]

theorem dispatch_redeclared_furnish :
    let outcome (children : List Work) := (root none none []).dispatch (Shell.finding none)
      (furnish children) ⟨(), .empty 20 1000⟩
    (outcome [cut, paint, join]).value.EndsLike (outcome [paint, join, cut]).value ∧
      (outcome [cut, paint, join]).value.children.map Work.name = ["cut", "paint", "join"] ∧
      (outcome [paint, join, cut]).value.children.map Work.name = ["paint", "cut", "join"] ∧
      (outcome [cut, paint, join]).value.core.context.int "table" = 2 ∧
      (outcome [cut, paint, join]).value.core.context.int "coat" = 2 ∧
      (outcome [cut, paint, join]).value.core.status = .failed := by
  have hordered : [cut, paint, join].Perm [paint, join, cut] :=
    show ([cut] ++ [paint, join]).Perm ([paint, join] ++ [cut]) from List.perm_append_comm
  refine ⟨dispatch_redeclared (root none none []) (Shell.finding none) (.refl _) hordered
    (Nat.zero_le _) (fun ready prepared context hentered hrealized => ?_) _ _, by decide +kernel,
    by decide +kernel, by decide +kernel, by decide +kernel, by decide +kernel⟩
  have hready : (root none none []).enter (furnish [cut, paint, join]) =
      .ok (furnish [cut, paint, join]) := rfl
  obtain ⟨rfl, hbody⟩ := Work.mk.inj (Except.ok.inj (hready.symm.trans hentered))
  obtain ⟨-, rfl⟩ := Body.job.inj hbody
  obtain ⟨rfl, -⟩ := Prod.mk.inj hrealized
  exact ⟨rfl, furnish_independent⟩

end Position

end ServiceShell
