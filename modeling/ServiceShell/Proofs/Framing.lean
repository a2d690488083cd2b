import ServiceShell.Proofs.StandIn
/-!
What a dispatch does around the execution of its unit: it leaves notes, realizes dependers, stores
what persisters ask for and reports, but it dispatches nothing else and calls nobody.
-/
namespace ServiceShell

/-- What the dispatch of a unit leaves in the history on its own account, behind the event that
announces it. The dependers that it realizes are those of the unit. -/
def Event.IsFrame (owner : Uuid) : Event → Prop
  | note _ | stored .. | recorded _ | flushed => True
  | realized unit _ => unit = owner
  | _ => False

def Framing (owner : Uuid) (events : List Event) : Prop := ∀ event ∈ events, event.IsFrame owner

namespace Framing
variable {owner : Uuid} {events later : List Event}

theorem nil : Framing owner [] := by simp [Framing]

theorem singleton {event : Event} (h : event.IsFrame owner) : Framing owner [event] :=
  List.forall_mem_singleton.mpr h

theorem recorded (entry : TraceEntry) : Framing owner [.recorded entry] := .singleton trivial

theorem notes (notes : List Note) : Framing owner (notes.map .note) :=
  List.forall_mem_map.mpr fun _ _ => trivial

theorem append (h : Framing owner events) (hlater : Framing owner later) :
    Framing owner (events ++ later) :=
  List.forall_mem_append.mpr ⟨h, hlater⟩

end Framing

/-- Behind the opening events there are just the given ones within a frame of the unit, and the
computation ends in the given world. -/
structure Outcome.Frames {σ α : Type} (outcome : Outcome σ α) (owner : Uuid)
    (opening : List Event) (world : World σ) (events : List Event) : Prop where
  world : outcome.world = world
  events : ∃ before after, outcome.events = opening ++ (before ++ events ++ after) ∧
    Framing owner before ∧ Framing owner after

namespace Outcome.Frames
variable {σ α β : Type} {outer : Outcome σ α} {inner : Outcome σ β} {owner : Uuid}
  {opening events : List Event} {world : World σ}

theorem trans (h : outer.Frames owner opening inner.world inner.events)
    (hinner : inner.Frames owner [] world events) : outer.Frames owner opening world events := by
  obtain ⟨before, after, hevents, hbefore, hafter⟩ := h.events
  obtain ⟨first, last, hinside, hfirst, hlast⟩ := hinner.events
  refine ⟨h.world.trans hinner.world, before ++ first, last ++ after, ?_, hbefore.append hfirst,
    hlast.append hafter⟩
  rw [hevents, hinside]
  simp only [List.nil_append, List.append_assoc]

/-- What follows belongs to the frame as well. -/
theorem extend (h : inner.Frames owner opening world events) {more : List Event}
    (hworld : outer.world = inner.world) (hevents : outer.events = inner.events ++ more)
    (hmore : Framing owner more) : outer.Frames owner opening world events := by
  obtain ⟨before, after, hinside, hbefore, hafter⟩ := h.events
  refine ⟨hworld.trans h.world, before, after ++ more, ?_, hbefore, hafter.append hmore⟩
  rw [hevents, hinside]
  simp only [List.append_assoc]

theorem absorb {more : List Event} (h : outer.Frames owner opening world (events ++ more))
    (hmore : Framing owner more) : outer.Frames owner opening world events := by
  obtain ⟨before, after, hinside, hbefore, hafter⟩ := h.events
  refine ⟨h.world, before, more ++ after, ?_, hbefore, hmore.append hafter⟩
  rw [hinside]
  simp only [List.append_assoc]

theorem inside (h : outer.Frames owner opening world events) : events <:+: outer.events := by
  obtain ⟨before, after, hevents, -, -⟩ := h.events
  exact ⟨opening ++ before, after, by simp [hevents]⟩

end Outcome.Frames

namespace Shell
variable {σ : Type} (shell : Shell σ)

theorem prepare_id {args : List Argument} {work ready : Work} (h : prepare args work = .ok ready) :
    ready.core.id = work.core.id := by
  have hreset (unit : Work) : (unit.reset args).core.id = unit.core.id := by
    unfold Work.reset
    split
    · obtain ⟨status, exceptions, trace, hcore⟩ := Work.resetCore_frame args unit
      rw [Work.mapUnits_core, hcore]
    · rfl
  obtain ⟨chosen, -, rfl⟩ := exists_readied h
  exact readied_keeps (·.core.id) hreset rfl

theorem persist_framing (owner : Uuid) (work : Work) (world : World σ) :
    Framing owner (persist (σ := σ) work world).events := by
  intro event hevent
  obtain ⟨unit, -, hunit⟩ := List.mem_flatMap.mp hevent
  obtain ⟨persister, -, rfl⟩ := List.mem_map.mp hunit
  cases unit.core.context.get? persister.source <;> trivial

theorem supervise_frames (owner : Uuid) (call : Call) (work : Work) (execute : Work → Run σ Attempt)
    (hdepth : call.depth ≤ shell.config.maxDelegationDepth) (world : World σ) :
    (shell.supervise call work execute world).Frames owner [.dispatched call.depth work]
      (execute work world).world (execute work world).events := by
  unfold supervise
  rw [if_neg (Nat.not_lt.mpr hdepth)]
  simp only [Run.bind_apply, Run.emit_apply, Run.note_apply]
  generalize execute work world = attempt
  obtain ⟨⟨ended, result⟩, later, events⟩ := attempt
  have hnote : Framing owner [.note (.dispatching work.kind work.name)] := .notes [_]
  cases result with
  | error e => exact ⟨rfl, _, _, rfl, hnote, .append (.notes [_]) (.recorded _)⟩
  | ok route =>
    dsimp only
    split
    · exact ⟨rfl, _, _, rfl, hnote, (persist_framing owner ended later).append (.recorded _)⟩
    · exact ⟨rfl, _, _, rfl, hnote, .append .nil (.recorded _)⟩

theorem realize_framing (args : List Argument) (dependers : List Depender) (core : Core)
    (world : World σ) : Framing core.id (realize args dependers core world).events := by
  induction dependers generalizing core with
  | nil => exact .nil
  | cons depender rest ih =>
    unfold realize
    obtain ⟨context, fault⟩ := depender.realize core.context args
    cases fault with
    | none => exact .append (.singleton rfl) (ih { core with context })
    | some fault => exact .append (.singleton rfl) (.notes [_])

/-- Dependers that let a unit come to its route. -/
theorem proceed_frames {call : Call} {work : Work} {route : Core → Bool → Run σ Attempt}
    {context : Context} (hrealized :
      Depender.realizeAll call.args work.core.dependers work.core.context = (context, none))
    (world : World σ) :
    let attempt := route (Core.setStatus { work.core with context } .running)
      work.core.status.isResumable world
    (proceed call work route world).Frames work.core.id [] attempt.world attempt.events := by
  have hframing := realize_framing call.args work.core.dependers work.core world
  obtain ⟨hvalue, hworld⟩ := realize_apply call.args work.core.dependers work.core world
  rw [hrealized] at hvalue
  unfold proceed
  simp only [Run.bind_apply, hvalue, hworld]
  generalize route _ work.core.status.isResumable world = attempt
  obtain ⟨⟨ended, result⟩, later, events⟩ := attempt
  cases result <;> exact ⟨rfl, _, [], by simp, hframing, .nil⟩

theorem proceed_stopped {call : Call} {work : Work} {route : Core → Bool → Run σ Attempt}
    {context : Context} {fault : Fault} (hrealized :
      Depender.realizeAll call.args work.core.dependers work.core.context = (context, some fault))
    (world : World σ) : (proceed call work route world).Frames work.core.id [] world [] := by
  have hframing := realize_framing call.args work.core.dependers work.core world
  obtain ⟨hvalue, hworld⟩ := realize_apply call.args work.core.dependers work.core world
  rw [hrealized] at hvalue
  unfold proceed
  simp only [Run.bind_apply, hvalue, hworld]
  exact ⟨rfl, _, [], by simp, hframing, .nil⟩

theorem Runner.runIn_frames (runner : Runner σ) (kind : Kind) (parent : String)
    (context : Context) {owner : Uuid} {opening events : List Event} {world later : World σ}
    (h : (runner.dispatch (runner.child.core.mapContext (·.withScope context)) world).Frames owner
      opening later events) :
    (runner.runIn kind parent context world).Frames owner opening later events := by
  unfold runIn
  simp only [Run.bind_apply]
  generalize runner.dispatch _ world = ended at h ⊢
  obtain ⟨⟨work, result⟩, last, inside⟩ := ended
  cases result with
  | ok => exact h.extend rfl rfl .nil
  | error e => exact h.extend rfl rfl (.notes [_])

end Shell

namespace Position
variable {σ : Type}

def announced : Position → Work → Work
  | root .., work => work
  | child _ _ _ scope, work => work.mapCore (·.mapContext (·.withScope scope))

def leave : Position → Work → Work
  | root .., work => work
  | child .., work => work.mapCore (·.mapContext .clearScope)

@[simp] theorem announced_id (position : Position) (work : Work) :
    (position.announced work).core.id = work.core.id := by
  cases position <;> rfl

@[simp] theorem leave_body (position : Position) (work : Work) :
    (position.leave work).body = work.body := by
  cases position <;> rfl

@[simp] theorem leave_children (position : Position) (work : Work) :
    (position.leave work).children = work.children := by
  cases position <;> rfl

@[simp] theorem leave_entries (position : Position) (work : Work) :
    (position.leave work).core.context.entries = work.core.context.entries := by
  cases position <;> rfl

@[simp] theorem leave_status (position : Position) (work : Work) :
    (position.leave work).core.status = work.core.status := by
  cases position <;> rfl

variable (position : Position) (shell : Shell σ) {work entered : Work}

theorem enter_id (hentered : position.enter work = .ok entered) :
    entered.core.id = work.core.id := by
  cases position with
  | root txn provider args => exact Shell.prepare_id hentered
  | child call kind parent scope =>
    obtain rfl := Except.ok.inj hentered
    rfl

theorem dispatch_root (txn : Option Transaction) (provider : Option String) (args : List Argument)
    (work : Work) (world : World σ) :
    let ended := shell.supervise ⟨0, txn, provider, args⟩ work
      (shell.executePrepared ⟨0, txn, provider, args⟩) world
    (root txn provider args).dispatch shell work world =
      ⟨ended.value.work, ended.world, ended.events ++ [.flushed]⟩ := by
  simp only [dispatch, Run.map_apply, shell.dispatch_apply]

theorem dispatch_frames (hentered : position.enter work = .ok entered)
    (hdepth : position.call.depth ≤ shell.config.maxDelegationDepth) (world : World σ) :
    let attempt := Shell.proceed position.call entered (fun core resuming =>
      shell.execute position.call core resuming entered.body) world
    (position.dispatch shell work world).Frames entered.core.id
      [.dispatched position.call.depth (position.announced work)] attempt.world attempt.events := by
  cases position with
  | root txn provider args =>
    have hprepare : Shell.prepare args work = .ok entered := hentered
    have hsupervised := shell.supervise_frames entered.core.id (Call.mk 0 txn provider args) work
      (shell.executePrepared ⟨0, txn, provider, args⟩) (Nat.zero_le _) world
    rw [shell.executePrepared_ok (Call.mk 0 txn provider args) hprepare] at hsupervised
    rw [dispatch_root]
    exact hsupervised.extend rfl rfl (.singleton trivial)
  | child call kind parent scope =>
    obtain rfl := Except.ok.inj hentered
    refine Shell.Runner.runIn_frames _ kind parent scope ?_
    rw [shell.runner_dispatch, shell.runner_child]
    exact shell.supervise_frames _ call _ _ hdepth world

/-- A root that cannot be prepared. -/
theorem dispatch_unprepared_value {error : DispatchError}
    (hentered : position.enter work = .error error) (world : World σ) :
    (position.dispatch shell work world).value = work.mapCore (·.fail error.asRoutine.toFault) := by
  cases position with
  | root txn provider args =>
    rw [dispatch_root]
    dsimp only
    rw [shell.supervise_value (Nat.zero_le _),
      shell.executePrepared_error (Call.mk 0 txn provider args) hentered]
    rfl
  | child call kind parent scope => cases hentered

theorem dispatch_unprepared {error : DispatchError} (hentered : position.enter work = .error error)
    (world : World σ) :
    (position.dispatch shell work world).Frames work.core.id
      [.dispatched position.call.depth (position.announced work)] world [] ∧
        (position.dispatch shell work world).value.body = work.body := by
  refine ⟨?_, by rw [position.dispatch_unprepared_value shell hentered]; rfl⟩
  cases position with
  | root txn provider args =>
    have hexecuted := shell.executePrepared_error (Call.mk 0 txn provider args) hentered
    have hsupervised := shell.supervise_frames work.core.id (Call.mk 0 txn provider args) work
      (shell.executePrepared ⟨0, txn, provider, args⟩) (Nat.zero_le _) world
    rw [hexecuted] at hsupervised
    rw [dispatch_root]
    exact hsupervised.extend rfl rfl (.singleton trivial)
  | child call kind parent scope => cases hentered

theorem dispatch_value (hentered : position.enter work = .ok entered)
    (hdepth : position.call.depth ≤ shell.config.maxDelegationDepth) (world : World σ) :
    (position.dispatch shell work world).value = position.leave
      (Shell.proceed position.call entered (fun core resuming =>
        shell.execute position.call core resuming entered.body) world).value.ended.work := by
  cases position with
  | root txn provider args =>
    have hprepare : Shell.prepare args work = .ok entered := hentered
    have hvalue := shell.dispatch_value (Call.mk 0 txn provider args) hdepth hprepare world
    exact congrArg Dispatched.work hvalue
  | child call kind parent scope =>
    obtain rfl := Except.ok.inj hentered
    have hvalue : dispatch (child call kind parent scope) shell work =
        (shell.runner call work).runIn kind parent scope := rfl
    have hdepth : call.depth ≤ shell.config.maxDelegationDepth := hdepth
    rw [hvalue, Shell.Runner.runIn_value, shell.runner_dispatch, shell.supervise_value hdepth,
      shell.runner_child]
    rfl

/-- Dependers that let a unit come to its execution. -/
theorem dispatch_executed {core : Core} {body : Body Work} {context : Context}
    (hentered : position.enter work = .ok ⟨core, body⟩)
    (hdepth : position.call.depth ≤ shell.config.maxDelegationDepth)
    (hrealized : Depender.realizeAll position.call.args core.dependers core.context =
      (context, none)) (world : World σ) :
    let attempt := shell.execute position.call (Core.setStatus { core with context } .running)
      core.status.isResumable body world
    (position.dispatch shell work world).Frames work.core.id
        [.dispatched position.call.depth (position.announced work)] attempt.world attempt.events ∧
      (position.dispatch shell work world).value =
        position.leave attempt.value.finished.ended.work := by
  have hframes := position.dispatch_frames shell hentered hdepth world
  have hvalue := position.dispatch_value shell hentered hdepth world
  rw [Shell.proceed_value] at hvalue
  dsimp only at hvalue
  rw [hrealized] at hvalue
  rw [← position.enter_id hentered]
  exact ⟨hframes.trans (Shell.proceed_frames hrealized world), hvalue⟩

theorem dispatch_stopped_value {core : Core} {body : Body Work} {context : Context} {fault : Fault}
    (hentered : position.enter work = .ok ⟨core, body⟩)
    (hdepth : position.call.depth ≤ shell.config.maxDelegationDepth)
    (hrealized : Depender.realizeAll position.call.args core.dependers core.context =
      (context, some fault)) (world : World σ) :
    (position.dispatch shell work world).value = position.leave
      (Attempt.mk ⟨{ core with context }, body⟩
        (.error (DispatchError.fault fault).asRoutine)).ended.work := by
  rw [position.dispatch_value shell hentered hdepth world, Shell.proceed_value]
  dsimp only
  rw [hrealized]

theorem dispatch_stopped {core : Core} {body : Body Work} {context : Context} {fault : Fault}
    (hentered : position.enter work = .ok ⟨core, body⟩)
    (hdepth : position.call.depth ≤ shell.config.maxDelegationDepth)
    (hrealized : Depender.realizeAll position.call.args core.dependers core.context =
      (context, some fault)) (world : World σ) :
    (position.dispatch shell work world).Frames work.core.id
        [.dispatched position.call.depth (position.announced work)] world [] ∧
      (position.dispatch shell work world).value.body = body := by
  have hframes := position.dispatch_frames shell hentered hdepth world
  rw [← position.enter_id hentered, position.dispatch_stopped_value shell hentered hdepth hrealized,
    leave_body]
  exact ⟨hframes.trans (Shell.proceed_stopped hrealized world), rfl⟩

end Position
end ServiceShell
