import ServiceShell.Proofs.Normalization
import ServiceShell.Proofs.Ways
/-!
What may become of a unit that is sent: its signature is corrected and resolved, and the unit is
served by a provider, by a stand-in or not at all.
-/
namespace ServiceShell

namespace Collaborators
variable {σ : Type} (c : Collaborators σ)

theorem discover_prelude (signature : Signature) :
    (c.discover signature).Only (·.isPrelude) := by
  have hlocate : (c.locateNamed signature).Only (·.isPrelude) := by
    unfold locateNamed
    cases signature.provider with
    | any => exact .pure _
    | named name =>
      refine .bind (.ask fun _ => rfl) fun answer => ?_
      cases answer with
      | ok handle => exact .pure _
      | error e => exact .bind (.note rfl) fun _ => .pure _
  have hfind : (c.findByType signature).Only (·.isPrelude) := by
    unfold findByType
    refine .bind (.ask fun _ => rfl) fun answer => ?_
    cases answer with
    | ok handle => exact .pure _
    | error e => exact .bind (.note rfl) fun _ => .pure _
  unfold discover
  refine .bind hlocate fun handle => ?_
  cases handle with
  | some handle => exact .pure _
  | none => exact hfind

/-- What a resolution leaves: it ends with the ping of the provider that it comes to, and fails
only for want of one. -/
structure Resolves (signature : Signature) (answer : Except DispatchError Handle)
    (events : List Event) : Prop where
  prelude : Prelude events
  unavailable : ∀ error, answer = .error error → error = unavailable signature
  alive : ∀ provider, answer = .ok (.provider provider) →
    ∃ earlier, events = earlier ++ [.pinged provider (.ok ())]

namespace Resolves
variable {signature : Signature} {answer : Except DispatchError Handle} {events : List Event}

theorem provider {provider : Provider} (h : Prelude events) :
    Resolves signature (.ok (.provider provider)) (events ++ [.pinged provider (.ok ())]) where
  prelude := h.append (by simp [Prelude, Event.isPrelude])
  unavailable := fun _ herror => by cases herror
  alive := fun other hother => by
    cases hother
    exact ⟨events, rfl⟩

theorem nobody (h : Prelude events) :
    Resolves signature (.error (Collaborators.unavailable signature)) events where
  prelude := h
  unavailable := fun _ herror => (Except.error.inj herror).symm
  alive := fun _ hprovider => by cases hprovider

theorem behind (h : Resolves signature answer events) {earlier : List Event}
    (hearlier : Prelude earlier) : Resolves signature answer (earlier ++ events) where
  prelude := hearlier.append h.prelude
  unavailable := h.unavailable
  alive := fun provider hprovider => by
    obtain ⟨first, rfl⟩ := h.alive provider hprovider
    exact ⟨earlier ++ first, (List.append_assoc ..).symm⟩

end Resolves

theorem resolves_load (signature : Signature) :
    (c.load signature).Ensures (Resolves signature) := by
  unfold load
  have hnote {n : Note} (h : (Event.note n).isPrelude) : Prelude [.note n] :=
    List.forall_mem_singleton.mpr h
  refine .bind (Run.Ensures.mono (c.discover_prelude signature) fun handle events h => ?_)
  have hfound : Prelude events := h
  match handle with
  | none => exact .bind (.note (.pure (.nobody (hfound.append (hnote rfl)))))
  | some (.standIn operation) =>
    refine .pure ⟨by simpa using hfound, ?_, ?_⟩ <;> intro _ hanswer <;> cases hanswer
  | some (.provider provider) =>
    refine .bind (.ask fun answer => ?_)
    cases answer with
    | ok => exact .bind (.useCache fun _ => .pure (.provider hfound))
    | error e =>
      refine .bind (.note (.pure (.nobody (hfound.append ?_))))
      simp [Prelude, Event.isPrelude, Event.isRemark]

theorem resolves_resolve (signature : Signature) :
    (c.resolve signature).Ensures (Resolves signature) := by
  unfold resolve
  refine .bind (.useCache fun cached => ?_)
  cases cached with
  | none => exact c.resolves_load signature
  | some provider =>
    refine .bind (.ask fun answer => ?_)
    cases answer with
    | ok =>
      have halive : Resolves signature (.ok (.provider provider))
        ([] ++ [.pinged provider (.ok ())]) := .provider (by simp [Prelude])
      exact .pure halive
    | error e =>
      have hdead : Prelude [.pinged provider (.error e),
          .note (.cachedProviderDead provider signature e)] := by
        simp [Prelude, Event.isPrelude, Event.isRemark]
      refine .bind (.note (.bind (.useCache fun _ => ?_)))
      refine (c.resolves_load signature).mono fun answer events h => ?_
      have hresolves := h.behind hdead
      exact hresolves

end Collaborators

def Work.outgoing (work : Work) (signature : Signature) : Work :=
  work.strip.mapCore (·.mapControl (·.noteService signature))

@[simp] theorem Work.outgoing_id (work : Work) (signature : Signature) :
    (work.outgoing signature).core.id = work.core.id := by
  simp [outgoing, mapCore, Core.mapControl]

@[simp] theorem Work.outgoing_exceptions (work : Work) (signature : Signature) :
    (work.outgoing signature).core.exceptions = work.core.exceptions := by
  simp [outgoing, mapCore, Core.mapControl]

def Work.held (work : Work) (provider : Provider) : Work :=
  work.mapCore (·.mapControl ({ · with lockHolder := some provider.id }))

def Collaborators.Answers {σ : Type} (c : Collaborators σ) (provider : Provider) (sent : Work)
    (txn : Option Transaction) (args : List Argument)
    (answer : Except RemoteError (Option Work)) : Prop :=
  ∃ env, (c.invoke provider sent txn args env).1 = answer

theorem Collaborators.call_answers {σ : Type} (c : Collaborators σ) (provider : Provider)
    (sent : Work) (txn : Option Transaction) (args : List Argument) :
    (c.call provider sent txn args).Ensures fun answer events =>
      c.Answers provider sent txn args answer ∧
        events = [.invoked provider sent txn args answer] :=
  fun world => ⟨⟨world.env, rfl⟩, rfl⟩

/-- How a provider that is asked answers to a unit, next to the unit as it was sent: by the call
alone, or by that in the bracket of an exclusive provider, which ends early where no transaction or
no lock is to be had. -/
inductive Asked {σ : Type} (c : Collaborators σ) (call : Call) (provider : Provider) (work : Work) :
    Work → Except DispatchError (Option Work) → List Event → Prop
  | shared {answer : Except RemoteError (Option Work)} : provider.exclusive = false →
    c.Answers provider work call.txn call.args answer →
      Asked c call provider work work (answer.mapError .remote)
        [.invoked provider work call.txn call.args answer]
  | uncreated {error : RemoteError} : provider.exclusive = true →
    Asked c call provider work work (.error (.remote error)) [.created (.error error)]
  | unlocked {txn : Transaction} {granted : Except RemoteError Bool}
      {aborted : Except RemoteError Unit} {message : String} {noted last : List Event} :
    provider.exclusive = true → granted ≠ .ok true → Remarks noted → Remarks last →
      Asked c call provider work work (.error (.lockDenied message))
        (.created (.ok txn) :: .locked (Exclusion.key work provider) work.core.id txn granted ::
          (noted ++ .aborted txn aborted :: last))
  | failed {txn : Transaction} {error : RemoteError} {aborted : Except RemoteError Unit}
      {last : List Event} : provider.exclusive = true → Remarks last →
    Asked c call provider work (work.held provider) (.error (.remote error))
      (.created (.ok txn) :: .locked (Exclusion.key work provider) work.core.id txn (.ok true) ::
        .invoked provider (work.held provider) call.txn call.args (.error error) ::
          .aborted txn aborted :: last)
  | committed {txn : Transaction} {result : Option Work} : provider.exclusive = true →
    c.Answers provider (work.held provider) call.txn call.args (.ok result) →
      Asked c call provider work (work.held provider) (.ok result)
        [.created (.ok txn), .locked (Exclusion.key work provider) work.core.id txn (.ok true),
          .invoked provider (work.held provider) call.txn call.args (.ok result),
          .committed txn (.ok ())]
  | uncommitted {txn : Transaction} {result : Option Work} {error : RemoteError}
      {aborted : Except RemoteError Unit} {noted last : List Event} :
    provider.exclusive = true →
      c.Answers provider (work.held provider) call.txn call.args (.ok result) →
        Remarks noted → Remarks last →
          Asked c call provider work (work.held provider)
            (.ok (result.map (·.mapCore (·.report
              (.exception s!"transaction commit failed: {error.message}")))))
            (.created (.ok txn) ::
              .locked (Exclusion.key work provider) work.core.id txn (.ok true) ::
                .invoked provider (work.held provider) call.txn call.args (.ok result) ::
                  .committed txn (.error error) :: (noted ++ .aborted txn aborted :: last))

def Event.isCall : Event → Bool
  | invoked .. | created _ | locked .. | committed .. | aborted .. => true
  | _ => false

theorem Asked.calls {σ : Type} {c : Collaborators σ} {call : Call} {provider : Provider}
    {work sent : Work} {answer : Except DispatchError (Option Work)} {events : List Event}
    (h : Asked c call provider work sent answer events) :
    ∀ event ∈ events, event.isCall ∨ event.isRemark := by
  have hall {events : List Event} (h : Remarks events) :
      ∀ event ∈ events, event.isCall ∨ event.isRemark := fun event hevent => .inr (h event hevent)
  cases h with
  | shared | uncreated | committed => simp [Event.isCall]
  | failed _ hlast => simpa [Event.isCall] using hall hlast
  | unlocked _ _ hnoted hlast | uncommitted _ _ hnoted hlast =>
    simpa [Event.isCall, or_imp, forall_and] using ⟨hall hnoted, hall hlast⟩

namespace Exclusion
variable {σ : Type} (exclusion : Exclusion σ)

theorem abortQuietly_ensures (txn : Transaction) :
    (exclusion.abortQuietly txn).Ensures fun _ events => ∃ aborted last,
      events = .aborted txn aborted :: last ∧ Remarks last := by
  unfold abortQuietly
  refine .bind (.ask fun answer => ?_)
  cases answer with
  | ok => exact .pure ⟨_, [], rfl, by simp [Remarks]⟩
  | error e => exact .note ⟨_, [_], rfl, List.forall_mem_singleton.mpr rfl⟩

/-- The lock is granted by that answer alone. -/
theorem isGranted_ensures (key : String) (owner : Uuid) (txn : Transaction) :
    (exclusion.isGranted key owner txn).Ensures fun granted events =>
      granted = true ∧ events = [.locked key owner txn (.ok true)] ∨
        granted = false ∧ ∃ answer noted, events = .locked key owner txn answer :: noted ∧
          answer ≠ .ok true ∧ Remarks noted := by
  unfold isGranted
  refine .bind (.ask fun answer => ?_)
  match answer with
  | .ok true => exact .pure (.inl ⟨rfl, rfl⟩)
  | .ok false => exact .pure (.inr ⟨rfl, _, [], rfl, by simp, by simp [Remarks]⟩)
  | .error e =>
    exact .bind (.note (.pure (.inr ⟨rfl, _, [_], rfl, by simp, List.forall_mem_singleton.mpr rfl⟩)))

theorem call_asked (c : Collaborators σ) (call : Call) {provider : Provider}
    (hexclusive : provider.exclusive = true) (work : Work) :
    (exclusion.call c provider work call.txn call.args).Ensures fun reply events =>
      Asked c call provider work reply.1 reply.2 events := by
  unfold Exclusion.call
  refine .bind (.ask fun created => ?_)
  cases created with
  | error e => exact .pure (.uncreated hexclusive)
  | ok txn =>
    refine .bind ((exclusion.isGranted_ensures _ _ txn).mono fun granted locked h => ?_)
    obtain ⟨rfl, rfl⟩ | ⟨rfl, answer, noted, rfl, hdenied, hnoted⟩ := h
    · refine .bind ((c.call_answers _ _ _ _).mono fun answer invoked h => ?_)
      obtain ⟨hanswers, rfl⟩ := h
      cases answer with
      | error e =>
        refine .bind ((exclusion.abortQuietly_ensures txn).mono fun _ _ h => .pure ?_)
        obtain ⟨aborted, last, rfl, hlast⟩ := h
        rw [List.append_nil]
        exact .failed hexclusive hlast
      | ok result =>
        unfold close
        refine .bind (.bind (.ask fun committed => ?_))
        cases committed with
        | ok => exact .pure (.pure (.committed hexclusive hanswers))
        | error e =>
          refine .bind (.note (.bind ((exclusion.abortQuietly_ensures txn).mono fun _ _ h => ?_)))
          obtain ⟨aborted, last, rfl, hlast⟩ := h
          have hnoted : Remarks [.note (.commitFailed txn (key work provider) e)] :=
            List.forall_mem_singleton.mpr rfl
          refine .pure (.pure ?_)
          rw [List.append_nil, List.append_nil]
          exact .uncommitted hexclusive hanswers hnoted hlast
    · refine .bind ((exclusion.abortQuietly_ensures txn).mono fun _ _ h => .pure ?_)
      obtain ⟨aborted, last, rfl, hlast⟩ := h
      rw [List.append_nil]
      exact .unlocked hexclusive hdenied hnoted hlast

end Exclusion

namespace Shell
variable {σ : Type} (shell : Shell σ)

/-- A provider is asked, unless there is no lock service for an exclusive one. -/
theorem answer?_ensures (call : Call) (provider : Provider) (work : Work) :
    (shell.answer? call provider work).Ensures fun reply events => match reply with
      | some (sent, answer) => Asked shell.collaborators call provider work sent answer events
      | none => events = [] ∧ provider.exclusive = true ∧ shell.collaborators.exclusion = none := by
  unfold answer?
  split
  · refine .bind ((shell.collaborators.call_answers _ _ _ _).mono fun answer events h => ?_)
    obtain ⟨hanswers, rfl⟩ := h
    cases answer <;> exact .pure (.shared ‹_› hanswers)
  · exact .map (Exclusion.call_asked _ _ call ‹_› work)
  · exact .pure ⟨rfl, ‹_›, ‹_›⟩

theorem takeAnswer_remarks (provider : Provider) (signature : Signature) (logged : Nat)
    (sent : Work) (answer : Except DispatchError (Option Work)) :
    (takeAnswer (σ := σ) provider signature logged sent answer).Only (·.isRemark) := by
  unfold takeAnswer
  split
  · unfold accept
    refine .bind (.noteAll (List.forall_mem_map.mpr fun _ _ => rfl)) fun _ => ?_
    split <;> exact .pure _
  · exact .bind (.note rfl) fun _ => .pure _
  · refine .bind (.note ?_) fun _ => .pure _
    split <;> rfl

def sentSignature (call : Call) (work : Work) : Signature :=
  requestedSignature call (work.correctedSignature shell.config.queueName)

def sentUnit (call : Call) (work : Work) : Work :=
  work.mapCore (Core.restate (work.correct shell.config.queueName).core.control.access
    (work.core.fidelities.setProcessSignature (shell.sentSignature call work)))

@[simp] theorem sentUnit_id (call : Call) (work : Work) :
    (shell.sentUnit call work).core.id = work.core.id := rfl

@[simp] theorem sentUnit_exceptions (call : Call) (work : Work) :
    (shell.sentUnit call work).core.exceptions = work.core.exceptions := rfl

theorem withRequestedProvider_correct (call : Call) (work : Work) :
    withRequestedProvider call (work.correctedSignature shell.config.queueName)
      (work.correct shell.config.queueName) =
        (shell.sentSignature call work, shell.sentUnit call work) := by
  have hcorrect := work.correct_eq shell.config.queueName
  have htwice := Fidelities.setProcessSignature_twice work.core.fidelities
    (work.correctedSignature_role shell.config.queueName)
  unfold withRequestedProvider sentUnit sentSignature requestedSignature
  cases call.provider with
  | none => exact congrArg (Prod.mk _) hcorrect
  | some name =>
    dsimp only
    split
    · exact congrArg (Prod.mk _) hcorrect
    · refine congrArg (Prod.mk _) ?_
      rw [← htwice]
      generalize (work.correct shell.config.queueName).core.control.access = access at hcorrect ⊢
      rw [hcorrect]
      rfl

inductive Served (shell : Shell σ) (call : Call) (signature : Signature) (unit : Work) :
    Except DispatchError Handle → Attempt → List Event → Prop
  | unresolved {error : DispatchError} :
    Served shell call signature unit (.error error) ⟨unit, .error error⟩ []
  | called {provider : Provider} {sent taken : Work}
      {answer : Except DispatchError (Option Work)} {asked noted : List Event} :
    Asked shell.collaborators call provider (unit.outgoing signature) sent answer asked →
      (takeAnswer provider signature unit.core.exceptions.length sent answer : Run σ Work).Yields
        taken noted →
        Served shell call signature unit (.ok (.provider provider)) ⟨taken, .ok .remote⟩
          (asked ++ noted)
  | unlockable {provider : Provider} {message : String} : provider.exclusive = true →
    shell.collaborators.exclusion = none →
      Served shell call signature unit (.ok (.provider provider))
        ⟨unit.outgoing signature, .error (.configuration message)⟩ []
  | stoodIn {operation : Operation} {id : Uuid} {own : Work} {ended : Dispatched}
      {inside : List Event} :
    unit.kind = .task →
      (shell.dispatchReady call.deeper (standInUnit id unit.core signature operation)).Yields
        ended inside →
        Served shell call signature unit (.ok (.standIn operation))
          (givenOver (served unit.core own) unit.body ended) inside
  | unfit {operation : Operation} {message : String} : unit.kind ≠ .task →
    Served shell call signature unit (.ok (.standIn operation))
      ⟨unit, .error (.configuration message)⟩ []

/-- What becomes of a unit that is sent: there is no such operation, or its signature is resolved,
and the unit is served accordingly. -/
inductive Sent (shell : Shell σ) (call : Call) (work : Work) : Attempt → List Event → Prop
  | unselectable {unit : Work} {fault : Fault} {noted : List Event} : Remarks noted →
    Sent shell call work ⟨unit.mapCore (·.fail fault), .ok .unselectable⟩ noted
  | served {handle : Except DispatchError Handle} {attempt : Attempt}
      {noted asked inside : List Event} : Remarks noted →
    (shell.collaborators.resolve (shell.sentSignature call work)).Yields handle asked →
      Served shell call (shell.sentSignature call work) (shell.sentUnit call work) handle attempt
        inside →
        Sent shell call work attempt (noted ++ (asked ++ inside))

theorem callProvider_served (call : Call) (provider : Provider) (unit : Work)
    (signature : Signature) :
    (shell.callProvider call provider unit signature).Ensures fun ended events =>
      Served shell call signature unit (.ok (.provider provider))
        ⟨ended.1, ended.2.map fun _ => .remote⟩ events := by
  unfold callProvider
  change Run.Ensures (shell.answer? call provider (unit.outgoing signature) >>= _) _
  refine .bind ((shell.answer?_ensures call provider _).mono fun reply asked hasked => ?_)
  cases reply with
  | none =>
    obtain ⟨rfl, hexclusive, hmissing⟩ := hasked
    exact .pure (.unlockable hexclusive hmissing)
  | some reply =>
    refine .bind ((Run.ensures_yields _).mono fun taken noted htaken => .pure ?_)
    change Run.Yields (takeAnswer _ _ (unit.outgoing signature).core.exceptions.length _ _) _ _
      at htaken
    rw [Work.outgoing_exceptions] at htaken
    rw [List.append_nil]
    exact .called hasked htaken

theorem runStandIn_eq (call : Call) (core : Core) (signature : Signature)
    (operation : Operation) : shell.runStandIn call core signature operation =
      Run.draw shell.collaborators.freshId >>= fun id =>
        handedBack (served core (.ofSignature id core.name
          (.object signature.selector signature.type operation))) <$>
            shell.dispatchReady call.deeper (standInUnit id core signature operation) := by
  unfold runStandIn
  refine congrArg (_ >>= ·) (funext fun id => ?_)
  dsimp only
  rw [delegateTo_eq]
  exact congrArg (_ <$> ·) (shell.dispatchOwn_eq call.deeper id core signature operation)

theorem handOver_served (call : Call) (signature : Signature) (unit : Work) (handle : Handle) :
    (shell.handOver call unit signature handle).Ensures
      (Served shell call signature unit (.ok handle)) := by
  unfold handOver
  cases handle with
  | provider provider =>
    refine .bind ((shell.callProvider_served call provider unit signature).mono
      fun ended events h => .pure ?_)
    rw [List.append_nil]
    exact h
  | standIn operation =>
    obtain ⟨core, body⟩ := unit
    cases body with
    | task model errands =>
      dsimp only
      rw [runStandIn_eq, bind_assoc]
      refine .bind (.draw fun id => .bind (.map ((Run.ensures_yields _).mono
        fun ended inside hended => .pure ?_)))
      rw [← givenOver_eq, List.append_nil]
      exact .stoodIn rfl hended
    | _ => exact .pure (.unfit (by simp [Work.kind]))

theorem correctSignature_ensures (work : Work) :
    (shell.correctSignature work).Ensures fun corrected events => Remarks events ∧
      corrected = (work.correctedSignature shell.config.queueName,
        work.correct shell.config.queueName) := by
  unfold correctSignature
  dsimp only
  split
  · exact .bind (.noteAll (.pure ⟨by simp [Remarks, Event.isRemark], rfl⟩))
  · exact .pure ⟨by simp [Remarks], rfl⟩

theorem send_sent (call : Call) (work : Work) :
    (shell.send call work).Ensures (Sent shell call work) := by
  unfold send
  refine .bind ((shell.correctSignature_ensures work).mono fun corrected noted h => ?_)
  obtain ⟨hnoted, rfl⟩ := h
  dsimp only
  split
  · refine .bind (.note (.pure (.unselectable ?_)))
    exact List.forall_mem_append.mpr ⟨hnoted, by simp [Event.isRemark]⟩
  · rw [withRequestedProvider_correct]
    refine .bind ((Run.ensures_yields _).mono fun handle asked hasked => ?_)
    cases handle with
    | error e => exact .pure (.served hnoted hasked .unresolved)
    | ok handle =>
      exact (shell.handOver_served call _ _ handle).mono fun attempt inside hserved =>
        .served hnoted hasked hserved

end Shell
end ServiceShell
