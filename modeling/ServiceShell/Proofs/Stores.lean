import ServiceShell.Proofs.Status
import ServiceShell.Proofs.Interior
import ServiceShell.Proofs.Untouched
/-!
What is stored by executions in this process. A task stores nothing itself: it is the dispatch
around an execution that stores what the persisters of the unit and of the units below it find.
-/
namespace ServiceShell

open Json (Value)

/-- A provider is called, or work is handed to a stand-in. -/
def Event.isAway : Event → Bool
  | invoked .. => true
  | dispatched depth _ => depth ≠ 0
  | _ => false

/-- All that happens, happens in this process and on behalf of no other unit. -/
def Staying (events : List Event) : Prop := ∀ event ∈ events, event.isAway = false

def stores (events : List Event) : List (String × Value) := events.filterMap Event.store?

section Events
variable {events later : List Event}

theorem staying_append : Staying (events ++ later) ↔ Staying events ∧ Staying later :=
  List.forall_mem_append

theorem Staying.of_infix (h : Staying events) (hinside : later <:+: events) : Staying later :=
  fun event hevent => h event (hinside.subset hevent)

@[simp] theorem stores_nil : stores [] = [] := rfl

@[simp] theorem stores_append : stores (events ++ later) = stores events ++ stores later :=
  List.filterMap_append

@[simp] theorem stores_cons (event : Event) (events : List Event) :
    stores (event :: events) = event.store?.toList ++ stores events := by
  unfold stores
  cases h : event.store? <;> simp [h]

theorem stores_flatMap {α : Type} (items : List α) (f : α → List Event) :
    stores (items.flatMap f) = items.flatMap fun item => stores (f item) :=
  List.filterMap_flatMap ..

@[simp] theorem stores_notes (notes : List Note) : stores (notes.map .note) = [] := by
  simp [stores, Event.store?, List.filterMap_map, Function.comp_def]

theorem stores_of_inner (h : Inner events) : stores events = [] := by
  refine List.filterMap_eq_nil_iff.mpr fun event hevent => ?_
  have hinner := h event hevent
  simp_all [Event.isInner]

theorem answers_of_staying (h : Staying events) : answers events = [] := by
  refine List.filterMap_eq_nil_iff.mpr fun event hevent => ?_
  have haway := h event hevent
  cases event <;> simp_all [Event.isAway, Event.answer?]

theorem slotValue?_eq_some_iff {slot : String} (hsingle : ∀ value other,
      (slot, value) ∈ stores events → (slot, other) ∈ stores events → value = other)
    {value : Value} :
    Event.slotValue? slot events = some value ↔ (slot, value) ∈ stores events := by
  have hlast {last : Value} (h : Event.slotValue? slot events = some last) :
      (slot, last) ∈ stores events := by
    obtain ⟨event, hevent, hvalue⟩ := List.exists_of_findSome?_eq_some h
    refine List.mem_filterMap.mpr ⟨event, List.mem_reverse.mp hevent, ?_⟩
    cases event with
    | stored other stored => simp_all [Event.store?]
    | _ => cases hvalue
  refine ⟨hlast, fun hmem => ?_⟩
  cases hfound : Event.slotValue? slot events with
  | some last => rw [hsingle value last hmem (hlast hfound)]
  | none =>
    obtain ⟨event, hevent, hstore⟩ := List.mem_filterMap.mp hmem
    have hnone := List.findSome?_eq_none_iff.mp hfound event (List.mem_reverse.mpr hevent)
    cases event with
    | stored other stored => simp_all [Event.store?]
    | _ => cases hstore

end Events

theorem Core.hasFailed_fail (core : Core) (fault : Fault) : (core.fail fault).hasFailed :=
  State.isFailure_ofFault fault

namespace Work

def slots (work : Work) : List String :=
  work.units.flatMap fun unit => unit.core.persisters.map Persister.slot

def kept (unit : Work) : List (String × Value) :=
  unit.core.persisters.filterMap fun persister =>
    (unit.core.context.get? persister.source).map (persister.slot, ·)

theorem mem_kept {unit : Work} {slot : String} {value : Value} : (slot, value) ∈ unit.kept ↔
    ∃ persister ∈ unit.core.persisters, persister.slot = slot ∧
      unit.core.context.get? persister.source = some value := by
  simp [kept]
  grind

end Work

namespace Run
variable {σ α β : Type} {x : Run σ α} {f : α → Run σ β}

def Storeless (x : Run σ α) : Prop := x.Ensures fun _ events => Staying events → stores events = []

theorem Only.storeless (h : x.Only (·.isWork)) : x.Storeless :=
  Ensures.mono h fun _ _ hworks _ =>
    stores_of_inner fun event hevent => Event.isInner_of_isWork (hworks event hevent)

theorem Storeless.bind (h : x.Storeless) (hf : ∀ value, (f value).Storeless) :
    (x >>= f).Storeless :=
  Ensures.bind (Ensures.mono h fun value events hfirst =>
    Ensures.mono (hf value) fun last later hlater hstays => by
      obtain ⟨hstaying, hlast⟩ := staying_append.mp hstays
      rw [stores_append, hfirst hstaying, hlater hlast, List.append_nil])

theorem storeless_composes : Run.Composes fun _ (x : Run σ _) => x.Storeless where
  pure _ := Ensures.pure fun _ => rfl
  note _ _ := Ensures.note fun _ => rfl
  bind hx hf := hx.bind hf

end Run

theorem keeping_stores (work : Work) : stores work.keeping = work.units.flatMap Work.kept := by
  unfold stores Work.keeping
  rw [List.filterMap_flatMap]
  refine List.flatMap_congr fun unit _ => ?_
  rw [List.filterMap_map]
  refine List.filterMap_congr fun persister _ => ?_
  dsimp only [Function.comp]
  cases unit.core.context.get? persister.source <;> rfl

/-- The dispatch around an execution stores what there is to keep, unless the unit has failed. -/
theorem Closes.stores_eq {attempt : Attempt} {events : List Event} (h : Closes attempt events) :
    stores events = if attempt.ended.work.core.hasFailed then []
      else attempt.ended.work.units.flatMap Work.kept := by
  cases h with
  | kept now hfailed => simp [Attempt.ended, hfailed, keeping_stores, Event.store?]
  | failed now hfailed => simp [Attempt.ended, hfailed, Event.store?]
  | @aborted unit error now =>
    have hfailed := unit.core.hasFailed_fail error.asRoutine.toFault
    simp [Attempt.ended, Work.mapCore, hfailed, Event.store?]

namespace Shell
variable {σ : Type} (shell : Shell σ)

theorem supervise_stores {call : Call} {work : Work} {execute : Work → Run σ Attempt}
    (hdepth : call.depth ≤ shell.config.maxDelegationDepth) (world : World σ) :
    let ended := (shell.supervise call work execute world).value.work
    stores (shell.supervise call work execute world).events =
      stores (execute work world).events ++
        if ended.core.hasFailed then [] else ended.units.flatMap Work.kept := by
  obtain ⟨after, hcloses, hrun⟩ := shell.supervise_apply hdepth world
  rw [hrun]
  simp [Event.store?, hcloses.stores_eq]

theorem proceed_stores (call : Call) (work : Work) (route : Core → Bool → Run σ Attempt)
    (world : World σ) : stores (proceed call work route world).events =
      match Depender.realizeAll call.args work.core.dependers work.core.context with
      | (context, none) => stores (route (Core.setStatus { work.core with context } .running)
          work.core.status.isResumable world).events
      | (_, some _) => [] := by
  obtain ⟨hvalue, hworld⟩ := realize_apply call.args work.core.dependers work.core world
  have hprelude : Prelude (realize call.args work.core.dependers work.core world).events :=
    realize_prelude call.args work.core.dependers work.core world
  have hstores := stores_of_inner hprelude.inner
  unfold proceed
  simp only [Run.bind_apply, hvalue, hworld]
  generalize Depender.realizeAll call.args work.core.dependers work.core.context = realized
  obtain ⟨context, fault⟩ := realized
  cases fault with
  | some fault => simp [hstores]
  | none =>
    simp only [Run.bind_apply]
    generalize route _ work.core.status.isResumable world = attempt
    obtain ⟨⟨ended, result⟩, later, events⟩ := attempt
    cases result <;> simp [hstores]

/-- What a shell hands to a stand-in ends with an error, unless it leaves the process. -/
theorem supervise_deeper {call : Call} {work : Work} {execute : Work → Run σ Attempt}
    (hdeeper : 0 < call.depth) :
    (shell.supervise call work execute).Ensures fun ended events => Staying events →
      stores events = [] ∧ ∃ error, ended.result = .error error := by
  refine shell.supervise_ensures (fun _ _ => ⟨rfl, _, rfl⟩) fun _ =>
    .of_forall fun attempt inside after _ hstays => ?_
  have hhere : (Event.dispatched call.depth work).isAway = false := hstays _ List.mem_cons_self
  simp only [Event.isAway, decide_eq_false_iff_not] at hhere
  omega

/-- An execution in this process that stores nothing. Unless the unit fails, it keeps its persisters
and has nothing below it. -/
def Bare (core : Core) (x : Run σ Attempt) : Prop :=
  x.Ensures fun attempt events => Staying events → stores events = [] ∧
    ∀ route, attempt.result = .ok route → ¬ attempt.work.core.hasFailed →
      attempt.work.core.persisters = core.persisters ∧ attempt.work.children = []

variable {shell} in
theorem Sent.stays {call : Call} {work : Work} {attempt : Attempt} {events : List Event}
    (h : Sent shell call work attempt events) (hstays : Staying events) :
    stores events = [] ∧ ∀ route, attempt.result = .ok route → attempt.work.core.hasFailed := by
  cases h with
  | unselectable hnoted => exact ⟨stores_of_inner hnoted.inner, fun _ _ => Core.hasFailed_fail _ _⟩
  | served hnoted hasked hserved =>
    have hresolved := ((shell.collaborators.resolves_resolve _).of_yields hasked).prelude
    have hbefore := stores_of_inner (hnoted.inner.append hresolved.inner)
    rw [← List.append_assoc] at hstays ⊢
    rw [stores_append, hbefore, List.nil_append]
    have hinside := (staying_append.mp hstays).2
    cases hserved with
    | unresolved | unlockable | unfit => exact ⟨rfl, fun _ hroute => by cases hroute⟩
    | @called provider sent taken answer asked noted hcalls htaken =>
      have hremarks : Remarks noted :=
        (takeAnswer_remarks provider _ _ sent answer).of_yields htaken
      refine ⟨stores_of_inner (hcalls.inner.append hremarks.inner), fun _ _ => ?_⟩
      have hnone := answers_of_staying hinside
      cases hcalls.called htaken with
      | answered _ _ hanswers => simp [hnone] at hanswers
      | failed => exact Core.hasFailed_fail _ _
    | @stoodIn _ _ _ ended _ _ hended =>
      obtain ⟨hstores, error, herror⟩ :=
        (shell.supervise_deeper (Nat.succ_pos call.depth)).of_yields hended hinside
      obtain ⟨unit, result⟩ := ended
      obtain rfl : result = .error error := herror
      exact ⟨hstores, fun _ hroute => by cases hroute⟩

/-- What runs in place of a task and keeps its persisters. -/
theorem bare_of_storeless {x : Run σ Core} (hstoreless : x.Storeless) {core : Core}
    {body : Body Work} (hbody : ∀ ended, Work.children ⟨ended, body⟩ = []) (route : Route)
    (hkeeps : x.Ensures fun ended _ => ended.persisters = core.persisters) :
    Bare core (do return ⟨⟨← x, body⟩, .ok route⟩) :=
  .bind ((Run.Ensures.and hstoreless hkeeps).mono fun ended events h => .pure fun hstays => by
    rw [List.append_nil] at hstays ⊢
    exact ⟨h.1 hstays, fun _ _ _ => ⟨h.2, hbody ended⟩⟩)

theorem Worked.persisters {core ended : Core} (h : Worked core ended) :
    ended.persisters = core.persisters := by
  cases h with
  | computed outcome | operated _ outcome =>
    obtain ⟨context, _ | fault⟩ := outcome <;> rfl

theorem failWith_persisters (core : Core) (faults : List Fault) (summary : String) :
    (failWith core faults summary).persisters = core.persisters := by
  have hlogged (core : Core) : (faults.foldl Core.fail core).persisters = core.persisters := by
    induction faults generalizing core with
    | nil => rfl
    | cons fault rest ih => exact ih (core.fail fault)
  unfold failWith
  split
  · rfl
  · exact hlogged core

theorem proceed_bare {call : Call} {work : Work} {route : Core → Bool → Run σ Attempt}
    (hroute : ∀ running resuming, Starts call work.core running →
      Bare running (route running resuming)) : Bare work.core (proceed call work route) := by
  refine proceed_ensures (fun _ _ _ hprelude _ _ => ?_) fun running hstarts => ?_
  · exact ⟨stores_of_inner hprelude.inner, fun _ hroute => by cases hroute⟩
  · refine Run.Ensures.mono (hroute running _ hstarts) fun attempt later h earlier hprelude _ => ?_
    intro hstays
    obtain ⟨hlater, hkeeps⟩ := h (staying_append.mp hstays).2
    refine ⟨by simp [stores_of_inner hprelude.inner, hlater], fun route hroute hunfailed => ?_⟩
    obtain ⟨context, -, rfl⟩ := hstarts
    obtain ⟨ended, result⟩ := attempt
    cases result with
    | error error => cases hroute
    | ok =>
      have hunfailed : ¬ ended.core.hasFailed := fun hfailed =>
        hunfailed (ended.core.hasFailed_finish ▸ hfailed)
      exact hkeeps route hroute hunfailed

theorem supervise_bare {call : Call} {work : Work} {execute : Work → Run σ Attempt}
    (hdepth : call.depth ≤ shell.config.maxDelegationDepth) {core : Core}
    (h : Bare core (execute work)) (world : World σ) :
    let run := shell.supervise call work execute world
    Staying run.events →
      stores run.events = (if run.value.work.core.hasFailed then []
        else run.value.work.units.flatMap Work.kept) ∧
      (¬ run.value.work.core.hasFailed →
        run.value.work.core.persisters = core.persisters ∧ run.value.work.children = []) := by
  intro run hstays
  have hframes := shell.supervise_frames work.core.id call work execute hdepth world
  obtain ⟨hnone, hkeeps⟩ := h world (hstays.of_infix hframes.inside)
  refine ⟨?_, fun hunfailed => ?_⟩
  · rw [shell.supervise_stores hdepth, hnone, List.nil_append]
  · have hvalue : run.value = (execute work world).value.ended := shell.supervise_value hdepth world
    rw [hvalue] at hunfailed ⊢
    generalize (execute work world).value = attempt at hunfailed hkeeps ⊢
    obtain ⟨ended, result⟩ := attempt
    cases result with
    | error error => exact absurd (Core.hasFailed_fail _ _) hunfailed
    | ok route => exact hkeeps route rfl hunfailed

theorem dispatchReady_storeless {call : Call} {unit : Work} (hnone : unit.core.persisters = [])
    (hbare : Bare unit.core (shell.executeReady call unit)) :
    (shell.dispatchReady call unit).Storeless := by
  intro world hstays
  by_cases hdepth : call.depth ≤ shell.config.maxDelegationDepth
  · obtain ⟨hstores, hkeeps⟩ := shell.supervise_bare hdepth hbare world hstays
    refine hstores.trans (ite_eq_left_iff.mpr fun hunfailed => ?_)
    obtain ⟨hpersisters, hchildren⟩ := hkeeps hunfailed
    rw [Work.flatMap_units, Work.kept, hpersisters, hchildren, hnone]
    rfl
  · exact (shell.supervise_deeper (Nat.zero_lt_of_lt (Nat.lt_of_not_le hdepth)) world hstays).1

theorem runStep_persisters (call : Call) {persisters : List Persister} (core : Core)
    (signature : Signature) (h : core.persisters = persisters) :
    (shell.runStep call core signature).Ensures fun ended _ => ended.1.persisters = persisters :=
  (shell.runStep_context call core signature).mono fun ended _ hended => by
    obtain ⟨context, hended⟩ := hended
    rw [hended]
    exact h

/-- What does not come to children of its own in this process, stores nothing itself: where its work
is handed over, it does not stay or fails. -/
theorem execute_bare (call : Call) (core : Core) (resuming : Bool) {body : Body Work}
    (hnone : ¬ (Work.isComposite ⟨core, body⟩ ∧ runsHere core ∧
      ∃ ordered, body.sequence? = .ok ordered)) :
    Bare core (shell.execute call core resuming body) := by
  induction core, body using execution_induction generalizing call resuming with
  | step core body ih =>
    have hway := shell.execute_way call core resuming body
    generalize shell.execute call core resuming body = x at hway ⊢
    cases hway with
    | own hown =>
      exact bare_of_storeless hown.works.storeless hown.childless _
        (hown.worked.mono fun _ _ hworked => hworked.persisters)
    | flow hflow =>
      have hstep (other : Core) (signature : Signature)
          (hmem : signature ∈ core.fidelities.selects) :
          (shell.runStep call other signature).Storeless := by
        refine Run.storeless_composes.runStep shell (.draw fun _ _ => rfl) fun id => ?_
        refine shell.dispatchReady_storeless rfl (proceed_bare fun running resuming hstarts => ?_)
        obtain ⟨context, -, rfl⟩ := hstarts
        exact ih _ (.step id other hflow hmem) context call.inner resuming fun h => by cases h.1
      exact bare_of_storeless (Run.storeless_composes.runFlow hstep) (fun _ => rfl) .controlFlow
        (runFlow_keeps (shell.runStep_persisters call)
          (fun core faults summary h => (failWith_persisters core faults summary).trans h) rfl)
    | sent =>
      refine (shell.send_sent call _).mono fun attempt events hsent hstays => ?_
      obtain ⟨hstores, hfailed⟩ := hsent.stays hstays
      exact ⟨hstores, fun route hroute hunfailed => absurd (hfailed route hroute) hunfailed⟩
    | errand =>
      refine .map ((shell.supervise_deeper (Nat.succ_pos call.depth)).mono
        fun ended events h hstays => ?_)
      obtain ⟨hstores, error, herror⟩ := h hstays
      obtain ⟨unit, result⟩ := ended
      obtain rfl : result = .error error := herror
      exact ⟨hstores, fun _ hroute => by cases hroute⟩
    | unordered =>
      exact .bind (.noteAll (.pure fun _ => ⟨by simp, fun _ hroute => by cases hroute⟩))
    | job horder hhere => exact absurd ⟨rfl, hhere, _, by rw [Body.sequence?, horder]; rfl⟩ hnone
    | @block _ children hhere => exact absurd ⟨rfl, hhere, children, rfl⟩ hnone

end Shell
end ServiceShell
