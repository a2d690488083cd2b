import Mathlib.Logic.Function.Iterate
import ServiceShell.Proofs.PostOrder
import ServiceShell.Proofs.Severity
/-!
The depth guard counts hand-overs to errands and stand-ins and nothing else. What it refuses does
not run, and each task on the way to it fails with the refusal alone; a chain of errands comes to
its end just if it has no more of them than the limit.
-/
namespace ServiceShell
open Json (Value)

theorem Link.call_depth (outer : Call) (link : Link) :
    (link.call outer).depth = outer.depth + link.hops := by
  cases link <;> rfl

namespace Trail
variable {σ : Type} {shell : Shell σ} {trail node : Trail} {hops : Nat} {link : Link}
  {passage : Passage}

/-- A task hands over, directly or through further tasks, to the dispatch at the root of a tree. -/
inductive HandsDown : Trail → Trail → Prop
  | direct {link next : Link} {passage inner : Passage} {inside : List Trail} {entry : TraceEntry}
    {trail : Trail} : trail ∈ inside → trail.made? = some (next, inner) → 0 < next.hops →
      HandsDown (reported link passage inside entry) trail
  | further {link next : Link} {passage inner : Passage} {inside : List Trail} {entry : TraceEntry}
    {trail node : Trail} : trail ∈ inside → trail.made? = some (next, inner) → 0 < next.hops →
      HandsDown trail node → HandsDown (reported link passage inside entry) node

theorem Reaches.faithful (hreaches : trail.Reaches hops node) (h : trail.Faithful shell) :
    node.Faithful shell := by
  induction hreaches with
  | refl => exact h
  | inside hmem _ _ ih =>
    cases h with
    | reported _ _ _ hinside => exact ih (hinside _ hmem)

theorem Faithful.reached (h : trail.Faithful shell) :
    ∀ node ∈ trail.nodes, ∃ hops, trail.Reaches hops node := by
  induction h with
  | own => simp [nodes]
  | refused => exact List.forall_mem_singleton.mpr ⟨0, .refl _⟩
  | reported _ _ _ hinside _ ih =>
    intro node hnode
    rw [nodes, nodesOf_eq_flatMap, List.mem_append, List.mem_flatMap, List.mem_singleton] at hnode
    obtain ⟨trail, htrail, hnode⟩ | rfl := hnode
    · obtain ⟨hops, hreaches⟩ := ih trail htrail node hnode
      obtain ⟨link, passage, hmade⟩ := trail.made_of_mem_nodes hnode
      exact ⟨_, .inside htrail hmade hreaches⟩
    · exact ⟨0, .refl _⟩

/-- Only hand-overs add to the depth. -/
theorem Reaches.depth (hreaches : trail.Reaches hops node) (h : trail.Of shell link passage)
    {last : Link} {inner : Passage} (hmade : node.made? = some (last, inner)) :
    inner.call.depth = passage.call.depth + hops := by
  induction hreaches generalizing link passage with
  | refl =>
    obtain ⟨rfl, rfl⟩ := Prod.mk.inj (Option.some.inj (h.made.symm.trans hmade))
    rfl
  | @inside other next outer middle inside entry trail node hops hmem hnext _ ih =>
    obtain ⟨rfl, rfl⟩ := Prod.mk.inj (Option.some.inj h.made)
    cases h.faithful with
    | reported _ _ _ hinside hmakes =>
      have hstep := (hmakes trail hmem next middle hnext).call
      rw [ih ⟨hinside trail hmem, hnext⟩ hmade, hstep, Link.call_depth, Nat.add_assoc]

/-- What is refused does not run: its unit is left as it was handed in, but for the refusal. -/
theorem Faithful.refusal {error : DispatchError}
    (h : (Trail.refused link passage error).Faithful shell) :
    shell.config.maxDelegationDepth < passage.call.depth ∧
      error = (shell.tooDeep passage.work.name).asRoutine ∧
      passage.ended = ⟨passage.work.mapCore (·.fail error.toFault), .error error⟩ := by
  cases h with
  | refused hdepth hoccurs =>
    obtain ⟨world, later, hrun⟩ := hoccurs
    rw [shell.supervise_refused hdepth] at hrun
    obtain ⟨hended, -, hevents⟩ := Outcome.mk.inj hrun
    obtain rfl := Note.refused.inj (Event.note.inj (List.cons.inj hevents).1)
    exact ⟨hdepth, rfl, hended.symm⟩

theorem Faithful.refused_iff (h : trail.Faithful shell)
    (hmade : trail.made? = some (link, passage)) :
    (∃ error, trail = .refused link passage error) ↔
      shell.config.maxDelegationDepth < passage.call.depth := by
  cases h with
  | own => cases hmade
  | refused hdepth =>
    obtain ⟨rfl, rfl⟩ := Prod.mk.inj (Option.some.inj hmade)
    exact iff_of_true ⟨_, rfl⟩ hdepth
  | reported hdepth =>
    obtain ⟨rfl, rfl⟩ := Prod.mk.inj (Option.some.inj hmade)
    exact iff_of_false (fun ⟨_, hnode⟩ => by cases hnode) (Nat.not_lt.mpr hdepth)

/-- A refusal comes back through all tasks that handed over to the dispatch that was refused. -/
theorem HandsDown.relays (hdown : trail.HandsDown node) (h : trail.Of shell link passage)
    {last : Link} {inner : Passage} {error : DispatchError}
    (hrefused : node = .refused last inner error) : passage.Relays error := by
  induction hdown generalizing link passage with
  | @direct other next outer middle inside entry trail hmem hnext hhops =>
    obtain ⟨rfl, rfl⟩ := Prod.mk.inj (Option.some.inj h.made)
    subst hrefused
    obtain ⟨rfl, rfl⟩ := Prod.mk.inj (Option.some.inj hnext)
    cases h.faithful with
    | reported _ _ _ hinside hmakes =>
      have hended := (hinside _ hmem).refusal.2.2
      exact (hmakes _ hmem _ _ rfl).relays hhops error (congrArg Dispatched.result hended)
  | @further other next outer middle inside entry trail node hmem hnext hhops _ ih =>
    obtain ⟨rfl, rfl⟩ := Prod.mk.inj (Option.some.inj h.made)
    cases h.faithful with
    | reported _ _ _ hinside hmakes =>
      obtain ⟨_, _, -, -, hended, -⟩ := ih ⟨hinside trail hmem, hnext⟩ hrefused
      exact (hmakes trail hmem next middle hnext).relays hhops error hended

end Trail
namespace Shell
variable {σ : Type} (shell : Shell σ)

def innermost (core : Core) (model : Option (List Procedure)) :
    List Errand → Core × Option (List Procedure)
  | [] => (core, model)
  | errand :: errands =>
    innermost (errand.core.mapContext (·.overlay core.context)) errand.model errands

theorem executeReady_plain (call : Call) {core : Core} (hnone : core.dependers = [])
    (body : Body Work) (world : World σ) :
    let ran := shell.execute call (core.setStatus .running) core.status.isResumable body world
    shell.executeReady call ⟨core, body⟩ world = ⟨ran.value.finished, ran.world, ran.events⟩ := by
  unfold executeReady proceed
  dsimp only
  rw [hnone]
  unfold realize
  simp only [Run.bind_apply, Run.pure_apply, List.nil_append]
  generalize shell.execute call _ _ body world = ran
  obtain ⟨⟨unit, result⟩, later, events⟩ := ran
  cases result <;> simp [Attempt.finished]

theorem givenOver_error (core : Core) (body : Body Work) {ended : Dispatched}
    {error : DispatchError} (h : ended.result = .error error) :
    (givenOver core body ended).result = .error error := by
  obtain ⟨work, result⟩ := ended
  obtain rfl : result = .error error := h
  rfl

/-- A chain with more errands than are allowed is stopped, by the guard or before it. -/
theorem chain_stopped (errands : List Errand) (call : Call) (core : Core)
    (model : Option (List Procedure)) (hdepth : call.depth ≤ shell.config.maxDelegationDepth)
    (hlong : shell.config.maxDelegationDepth < call.depth + errands.length) (world : World σ) :
    ∃ error, (shell.executeReady call ⟨core, .task model errands⟩ world).value.result =
      .error error := by
  induction errands generalizing call core model with
  | nil => exact absurd hlong (Nat.not_lt.mpr hdepth)
  | cons errand errands ih =>
    have hnext (unit : Core) : ∃ error,
        (shell.dispatchReady call.deeper ⟨unit, .task errand.model errands⟩ world).value.result =
          .error error := by
      by_cases hdeeper : call.deeper.depth ≤ shell.config.maxDelegationDepth
      · have hlong : shell.config.maxDelegationDepth < call.deeper.depth + errands.length := by
          simp only [Call.deeper, List.length_cons] at hlong ⊢
          omega
        rw [dispatchReady, shell.supervise_value hdeeper world]
        exact (Attempt.ended_error_iff _).mpr (ih call.deeper unit errand.model hdeeper hlong)
      · rw [dispatchReady, shell.supervise_refused (Nat.lt_of_not_le hdeeper)]
        exact ⟨_, rfl⟩
    rcases hrealized : Depender.realizeAll call.args core.dependers core.context with
      ⟨context, _ | fault⟩
    · have hstarts : Starts call core (Core.setStatus { core with context } .running) :=
        ⟨context, hrealized, rfl⟩
      obtain ⟨error, herror⟩ := hnext (errand.core.mapContext (·.overlay context))
      rw [shell.executeReady_started hstarts, Attempt.finished_result, Way.execute_eq .errand,
        Run.map_apply]
      exact ⟨error, givenOver_error _ _ herror⟩
    · rw [executeReady, proceed_value]
      dsimp only
      rw [hrealized]
      exact ⟨_, rfl⟩

def logic (events : List Event) : List Event := events.filter Event.isLogic

theorem supervise_logic {call : Call} (work : Work) (execute : Work → Run σ Attempt)
    (hdepth : call.depth ≤ shell.config.maxDelegationDepth) (world : World σ) :
    logic (shell.supervise call work execute world).events = logic (execute work world).events := by
  obtain ⟨later, after, now, route, hrun, hafter, -⟩ :=
    supervise_reported work execute hdepth world
  have hnone : logic after = [] := List.filter_eq_nil_iff.mpr fun event hevent => by
    simp [(hafter event hevent).2]
  rw [hrun]
  simp only [logic] at hnone ⊢
  simp [hnone, Event.isLogic]

theorem dispatch_logic (call : Call) (hdepth : call.depth ≤ shell.config.maxDelegationDepth)
    {work ready : Work} (h : prepare call.args work = .ok ready) (world : World σ) :
    logic (shell.dispatch call work world).events =
      logic (shell.executeReady call ready world).events := by
  have hsupervised := shell.supervise_logic work (shell.executePrepared call) hdepth world
  rw [shell.executePrepared_ok call h] at hsupervised
  exact ((List.filter_append ..).trans (List.append_nil _)).trans hsupervised

/-- A chain ends as its innermost task: the task comes to its end, no other logic runs, and what the
innermost one has in its data is handed back. -/
structure Completes (inner : Outcome σ Attempt) (ran : Outcome σ Attempt) : Prop where
  ok : ∃ route, ran.value.result = .ok route
  unfailed : ¬ ran.value.work.core.hasFailed
  logic : Shell.logic ran.events = Shell.logic inner.events
  entries : ∀ path value, inner.value.work.core.context.entries.get? path = some value →
    ran.value.work.core.context.entries.get? path = some value

def executeInnermost (call : Call) (core : Core) (model : Option (List Procedure))
    (errands : List Errand) : Run σ Attempt :=
  let last := innermost core model errands
  shell.execute (Call.deeper^[errands.length] call) (last.1.setStatus .running)
    last.1.status.isResumable (.task last.2 [])

theorem Completes.ended {inner ran : Outcome σ Attempt} (h : Completes inner ran) :
    ran.value.ended = ⟨ran.value.work, .ok ()⟩ := by
  obtain ⟨route, hroute⟩ := h.ok
  rw [Attempt.ended, hroute]

theorem Completes.finished {inner ran : Outcome σ Attempt} (h : Completes inner ran) :
    Completes inner ⟨ran.value.finished, ran.world, ran.events⟩ := by
  obtain ⟨⟨unit, result⟩, later, events⟩ := ran
  obtain ⟨route, hroute⟩ := h.ok
  obtain rfl : result = .ok route := hroute
  refine ⟨⟨route, rfl⟩, fun hfailed => h.unfailed ?_, h.logic, h.entries⟩
  exact unit.core.hasFailed_finish ▸ hfailed

/-- A task that has handed over to a chain that completes. -/
theorem Completes.givenOver {inner ran : Outcome σ Attempt} (h : Completes inner ran) (core : Core)
    (hrunning : core.status = .running) (body : Body Work) {outer : Outcome σ Attempt}
    (houter : outer.value = Shell.givenOver core body ran.value.ended)
    (hlogic : Shell.logic outer.events = Shell.logic ran.events) : Completes inner outer := by
  have hunfailed : ran.value.work.core.hasFailed = false := by simpa using h.unfailed
  have htaken : outer.value = ⟨⟨core.mapContext (·.overlay ran.value.work.core.context) |>.reportAll
      ran.value.work.core.exceptions, body⟩, .ok .delegate⟩ := by
    rw [houter, h.ended]
    simp only [Shell.givenOver, takeBack, hunfailed]
    rfl
  refine ⟨⟨.delegate, by rw [htaken]⟩, ?_, hlogic.trans h.logic, fun path value hvalue => ?_⟩
  · rw [htaken]
    simp [Core.hasFailed, Core.mapContext, Core.reportAll, hrunning, State.isFailure]
  · have hentry := h.entries path value hvalue
    rw [htaken]
    simp only [Core.mapContext, Core.reportAll, Context.overlay, OrderedMap.get?_overlay]
      at hentry ⊢
    rw [hentry]
    rfl

theorem chain_completes (errands : List Errand) {call : Call} {core : Core}
    {model : Option (List Procedure)}
    (hshort : call.depth + errands.length ≤ shell.config.maxDelegationDepth)
    (hnone : ∀ unit ∈ core :: errands.map Errand.core, unit.dependers = []) (world : World σ)
    (hok : let inner := shell.executeInnermost call core model errands world
      (∃ route, inner.value.result = .ok route) ∧ ¬ inner.value.work.core.hasFailed) :
    Completes (shell.executeInnermost call core model errands world)
      (shell.executeReady call ⟨core, .task model errands⟩ world) := by
  induction errands generalizing call core model with
  | nil =>
    rw [shell.executeReady_plain call (hnone core List.mem_cons_self)]
    exact Completes.finished ⟨hok.1, hok.2, rfl, fun _ _ => id⟩
  | cons errand errands ih =>
    have hdeeper : call.deeper.depth + errands.length ≤ shell.config.maxDelegationDepth := by
      simp only [Call.deeper, List.length_cons] at hshort ⊢
      omega
    have hrest : ∀ unit ∈ errand.core.mapContext (·.overlay core.context) ::
        errands.map Errand.core, unit.dependers = [] := by
      obtain ⟨-, hrest⟩ := List.forall_mem_cons.mp hnone
      obtain ⟨herrand, hrest⟩ := List.forall_mem_cons.mp hrest
      exact List.forall_mem_cons.mpr ⟨herrand, hrest⟩
    have hdepth : call.deeper.depth ≤ shell.config.maxDelegationDepth :=
      Nat.le_of_add_right_le hdeeper
    have hinner : Completes (shell.executeInnermost call.deeper
        (errand.core.mapContext (·.overlay core.context)) errand.model errands world) _ :=
      ih hdeeper hrest hok
    rw [shell.executeReady_plain call (hnone core List.mem_cons_self), Way.execute_eq .errand,
      Run.map_apply]
    have hrunning : (served (core.setStatus .running)
        ⟨errand.core, .task errand.model errands⟩).status = .running := served_status _ _
    refine Completes.finished (hinner.givenOver _ hrunning (.task model []) ?_ ?_)
    · exact congrArg (Shell.givenOver _ (.task model [])) (shell.supervise_value hdepth world)
    · exact shell.supervise_logic _ _ hdepth world

theorem execute_own_logic (call : Call) {core : Core} (resuming : Bool) (hsingle : Single core)
    {signature : Signature} {operation : Operation}
    (hsignature : core.processSignature = some signature)
    (htarget : signature.target = some operation) (world : World σ) :
    logic (shell.execute call core resuming (.task none []) world).events =
      [.operated core.id signature] := by
  rw [Way.execute_eq (.own (.operation hsingle hsignature htarget)), operate_eq]
  simp only [Run.bind_apply, runCode_apply, Run.pure_apply, List.append_nil]
  cases (operation signature.selector core.context).2 <;> rfl

/-- What becomes of a dispatch that was refused inside another one. -/
structure CutsOff (trail node : Trail) (passage : Passage) (error : DispatchError) : Prop where
  cause : error = .routine (.configuration
    s!"delegation deeper than {shell.config.maxDelegationDepth} levels at '{passage.work.name}'")
  unrun : node.events = [.note (.refused error)] ∧
    passage.ended = ⟨passage.work.mapCore (·.fail error.toFault), .error error⟩
  relayed : ∀ outer ∈ trail.nodes, outer.HandsDown node → ∀ link task,
    outer.made? = some (link, task) → task.Relays error

/-- The depth guard of a dispatch that a caller makes: whatever is dispatched inside of it through a
number of hand-overs, and any number of composites and flows, is refused just if they are more than
the limit. A chain of errands without dependers whose innermost task succeeds where it is reached
comes to its end just if it is no longer than the limit; then the innermost task was executed once
and nothing else, and what its data hold is in those of the head. -/
theorem delegation_guarded (txn : Option Transaction) (provider : Option String)
    (args : List Argument) (work : Work) (world : World σ) :
    let call : Call := ⟨0, txn, provider, args⟩
    let limit := shell.config.maxDelegationDepth
    let run := shell.dispatch call work world
    (∃ trail, run.events = trail.events ++ [.flushed] ∧
      trail.Of shell .request ⟨call, work, prepare args work, run.value⟩ ∧
      (∀ node ∈ trail.nodes, ∃ hops, trail.Reaches hops node) ∧
      ∀ hops node link passage, trail.Reaches hops node → node.made? = some (link, passage) →
        ((∃ error, node = .refused link passage error) ↔ limit < hops) ∧
        ∀ error, node = .refused link passage error →
          shell.CutsOff trail node passage error) ∧
    ∀ core model errands, prepare args work = .ok ⟨core, .task model errands⟩ →
      (∀ unit ∈ core :: errands.map Errand.core, unit.dependers = []) →
      let last := innermost core model errands
      let inner := shell.executeInnermost call core model errands world
      (errands.length ≤ limit →
        (∃ route, inner.value.result = .ok route) ∧ ¬ inner.value.work.core.hasFailed) →
      (run.value.result = .ok () ↔ errands.length ≤ limit) ∧
      (errands.length ≤ limit → logic run.events = logic inner.events ∧
        (∀ signature operation, last.1.processSignature = some signature →
          signature.target = some operation → Single last.1 → last.2 = none →
            logic inner.events = [.operated last.1.id signature]) ∧
        ∀ path value, inner.value.work.core.context.entries.get? path = some value →
          run.value.work.core.context.entries.get? path = some value) := by
  intro call limit run
  refine ⟨?_, ?_⟩
  · obtain ⟨trail, hevents, hof⟩ := shell.dispatch_trail call work world
    refine ⟨trail, hevents, hof, hof.faithful.reached, ?_⟩
    intro hops node link passage hreaches hmade
    have hfaithful := hreaches.faithful hof.faithful
    have hdepth : passage.call.depth = 0 + hops := hreaches.depth hof hmade
    rw [Nat.zero_add] at hdepth
    refine ⟨hdepth ▸ hfaithful.refused_iff hmade, fun error hrefused => ?_⟩
    subst hrefused
    obtain ⟨-, herror, hended⟩ := hfaithful.refusal
    refine ⟨herror, ⟨rfl, hended⟩, fun outer hnode hdown other task hother => ?_⟩
    exact hdown.relays ⟨(hof.faithful.node outer hnode).1, hother⟩ rfl
  · intro core model errands hprepare hnone last inner hok
    have hvalue : run.value =
        (shell.executeReady call ⟨core, .task model errands⟩ world).value.ended :=
      shell.dispatch_value call (Nat.zero_le _) hprepare world
    have hlogic : logic run.events =
        logic (shell.executeReady call ⟨core, .task model errands⟩ world).events :=
      shell.dispatch_logic call (Nat.zero_le _) hprepare world
    have hcompletes (hshort : errands.length ≤ limit) :
        Completes inner (shell.executeReady call ⟨core, .task model errands⟩ world) :=
      shell.chain_completes errands (by simpa [call] using hshort) hnone world (hok hshort)
    rw [hvalue, hlogic]
    refine ⟨⟨fun hrun => ?_, fun hshort => ?_⟩, fun hshort => ⟨(hcompletes hshort).logic, ?_, ?_⟩⟩
    · by_contra hlong
      obtain ⟨error, herror⟩ := shell.chain_stopped errands call core model
        (Nat.zero_le _) (by simpa [call] using Nat.lt_of_not_le hlong) world
      obtain ⟨other, hother⟩ := (Attempt.ended_error_iff _).mpr ⟨error, herror⟩
      rw [hrun] at hother
      cases hother
    · rw [(hcompletes hshort).ended]
    · intro signature operation hsignature htarget hsingle hmodel
      have hsingle : Single (last.1.setStatus .running) := hsingle
      have hown := shell.execute_own_logic (Call.deeper^[errands.length] call)
        last.1.status.isResumable hsingle hsignature htarget world
      rw [← hmodel] at hown
      exact hown
    · rw [(hcompletes hshort).ended]
      exact (hcompletes hshort).entries

def limited (limit : Nat) : Shell Unit :=
  { finding none with config := { Config.default with maxDelegationDepth := limit } }

def sealing : Operation := fun _ context => (context.put "seal" (.bool true), none)

def passedOn : Work :=
  ⟨Core.fresh (.ofNat 0) "order", .task none
    [⟨Core.fresh (.ofNat 1) "agent", none⟩,
      ⟨(Work.ofSignature (.ofNat 2) "clerk" (.object "seal" "Office" sealing)).core, none⟩]⟩

/-- Two hand-overs are allowed and the seal is on the order, or only one and nothing is done. -/
theorem delegation_guarded_passedOn :
    let run := fun limit => (limited limit).dispatch ⟨0, none, none, []⟩ passedOn
      ⟨(), .empty 20 1000⟩
    (run 2).value.result = .ok () ∧
      logic (run 2).events = [.operated (.ofNat 2) (.object "seal" "Office" sealing)] ∧
      (run 2).value.work.core.context.entries.get? "seal" = some (.bool true) ∧
      (run 1).value.result ≠ .ok () := by
  intro run
  have hnone : ∀ unit ∈ (Core.fresh (.ofNat 0) "order") :: [Core.fresh (.ofNat 1) "agent",
      (Work.ofSignature (.ofNat 2) "clerk" (.object "seal" "Office" sealing)).core],
        unit.dependers = [] := by
    simp [Core.fresh, Work.ofSignature, Core.mapControl]
  have hguarded (limit : Nat) := ((limited limit).delegation_guarded none none [] passedOn
    ⟨(), .empty 20 1000⟩).2 (Core.fresh (.ofNat 0) "order") none _ rfl hnone
      fun _ => ⟨⟨.inProcess, rfl⟩, fun hfailed => absurd hfailed Bool.false_ne_true⟩
  obtain ⟨hok, hran⟩ := hguarded 2
  obtain ⟨hlogic, hown, hentries⟩ := hran (Nat.le_refl 2)
  refine ⟨hok.mpr (Nat.le_refl 2), ?_, hentries "seal" (.bool true) rfl, fun hshort => ?_⟩
  · exact hlogic.trans (hown _ _ rfl rfl (Nat.le_refl 1) rfl)
  · exact absurd ((hguarded 1).1.mp hshort) (by decide)

end Shell
end ServiceShell
