import ServiceShell.Proofs.EveryDispatch
import ServiceShell.Proofs.Exchange
/-!
What the call of a provider makes of a unit. The unit that is answered takes the place of the one
that was sent; it fails for the faults that its log has beyond the length of the log that was sent.
-/
namespace ServiceShell

namespace Event

def answer? : Event → Option (Work × Work)
  | invoked _ sent _ _ (.ok (some result)) => some (sent, result)
  | _ => none

def commitFault? : Event → Option Fault
  | committed _ (.error error) => some (.exception s!"transaction commit failed: {error.message}")
  | _ => none

theorem answer?_of_not_isTurn {event : Event} (h : ¬ event.isTurn) : event.answer? = none := by
  cases event <;> first | rfl | exact absurd rfl h

theorem commitFault?_of_not_isTurn {event : Event} (h : ¬ event.isTurn) :
    event.commitFault? = none := by
  cases event <;> first | rfl | exact absurd rfl h

end Event

def answers (events : List Event) : List (Work × Work) := events.filterMap Event.answer?

def commitFaults (events : List Event) : List Fault := events.filterMap Event.commitFault?

@[simp] theorem answers_nil : answers [] = [] := rfl

@[simp] theorem commitFaults_nil : commitFaults [] = [] := rfl

@[simp] theorem answers_cons (event : Event) (events : List Event) :
    answers (event :: events) = event.answer?.toList ++ answers events := by
  unfold answers
  cases h : event.answer? <;> simp [h]

@[simp] theorem commitFaults_cons (event : Event) (events : List Event) :
    commitFaults (event :: events) = event.commitFault?.toList ++ commitFaults events := by
  unfold commitFaults
  cases h : event.commitFault? <;> simp [h]

@[simp] theorem answers_append (events later : List Event) :
    answers (events ++ later) = answers events ++ answers later :=
  List.filterMap_append

@[simp] theorem commitFaults_append (events later : List Event) :
    commitFaults (events ++ later) = commitFaults events ++ commitFaults later :=
  List.filterMap_append

theorem filterMap_turns {α : Type} {f : Event → Option α}
    (h : ∀ event : Event, ¬ event.isTurn → f event = none) (events : List Event) :
    (events.filter Event.isTurn).filterMap f = events.filterMap f := by
  rw [List.filterMap_filter]
  refine List.filterMap_congr fun event _ => ?_
  split
  · rfl
  · exact (h event ‹_›).symm

def Unanswered (events : List Event) : Prop := answers events = [] ∧ commitFaults events = []

namespace Unanswered
variable {events later : List Event}

theorem nil : Unanswered [] := ⟨rfl, rfl⟩

theorem of_filter {turns : List Event} (h : events.filter Event.isTurn = turns)
    (hturns : Unanswered turns) : Unanswered events := by
  subst h
  rw [Unanswered, answers, commitFaults, filterMap_turns fun _ => Event.answer?_of_not_isTurn,
    filterMap_turns fun _ => Event.commitFault?_of_not_isTurn] at hturns
  exact hturns

theorem append (h : Unanswered events) (hlater : Unanswered later) :
    Unanswered (events ++ later) := by
  simp [Unanswered, h.1, h.2, hlater.1, hlater.2]

end Unanswered

theorem Framing.unanswered {owner : Uuid} {events : List Event} (h : Framing owner events) :
    Unanswered events :=
  .of_filter h.filter_isTurn .nil

theorem Prelude.unanswered {events : List Event} (h : Prelude events) : Unanswered events := by
  constructor <;> refine List.filterMap_eq_nil_iff.mpr fun event hevent => ?_
  · have hprelude := h event hevent
    cases event <;> first | rfl | cases hprelude
  · have hprelude := h event hevent
    cases event <;> first | rfl | cases hprelude

namespace Core

def reportAll (core : Core) (faults : List Fault) : Core :=
  { core with exceptions := core.exceptions ++ faults }

end Core

namespace Work

@[simp] theorem mapCore_reportAll_nil (work : Work) : work.mapCore (·.reportAll []) = work := by
  cases work
  simp only [mapCore, Core.reportAll, List.append_nil]

def acceptedStatus (result : Work) (logged : Nat) : State :=
  let fresh := result.core.exceptions.drop logged
  if fresh = [] then result.core.status else if fresh.any Fault.isFatal then .error else .failed

def accepted (result : Work) (logged : Nat) : Work :=
  if result.core.exceptions.drop logged = [] then result
  else result.mapCore (·.setStatus (result.acceptedStatus logged))

theorem accepted_exceptions (result : Work) (logged : Nat) :
    (result.accepted logged).core.exceptions = result.core.exceptions := by
  unfold accepted
  split <;> rfl

theorem acceptedStatus_of_fresh {result : Work} {logged : Nat}
    (h : result.core.exceptions.drop logged ≠ []) :
    (result.acceptedStatus logged).isFailure := by
  rw [acceptedStatus, if_neg h]
  split <;> rfl

end Work

/-- How the call of a provider ended for a unit of the given id and log: with the unit that was sent
and what came back for it. A failed commit is noted on the unit that comes back. -/
inductive Reply (id : Uuid) (log : List Fault) :
    Work → Except DispatchError (Option Work) → List Event → Prop
  | unit {sent result : Work} {faults : List Fault} {events : List Event} :
    sent.core.id = id → sent.core.exceptions = log → answers events = [(sent, result)] →
      commitFaults events = faults →
        Reply id log sent (.ok (some (result.mapCore (·.reportAll faults)))) events
  | nothing {sent : Work} {events : List Event} :
    answers events = [] → Reply id log sent (.ok none) events
  | error {sent : Work} {error : DispatchError} {events : List Event} :
    answers events = [] → Reply id log sent (.error error) events

/-- Without a failed commit the unit comes back as it was answered. -/
theorem Reply.unreported {id : Uuid} {log : List Fault} {sent result : Work} {events : List Event}
    (hid : sent.core.id = id) (hlog : sent.core.exceptions = log)
    (hanswers : answers events = [(sent, result)]) (hfaults : commitFaults events = []) :
    Reply id log sent (.ok (some result)) events := by
  rw [← result.mapCore_reportAll_nil]
  exact .unit hid hlog hanswers hfaults

/-- What the call of a provider leaves of a unit of the given id and log: the answer that is taken
over for it, or a unit that has failed. -/
inductive Called (id : Uuid) (log : List Fault) (events : List Event) : Work → Prop
  | answered {sent result : Work} :
    sent.core.id = id → sent.core.exceptions = log → answers events = [(sent, result)] →
      Called id log events
        ((result.mapCore (·.reportAll (commitFaults events))).accepted log.length)
  | failed {core : Core} {fault : Fault} {body : Body Work} :
    answers events = [] → Called id log events ⟨core.fail fault, body⟩

/-- Around a call nothing else is answered. -/
theorem Called.extend {id : Uuid} {log : List Fault} {events before after : List Event}
    {work : Work} (h : Called id log events work) (hbefore : Unanswered before)
    (hafter : Unanswered after) : Called id log (before ++ events ++ after) work := by
  have hanswers : answers (before ++ events ++ after) = answers events := by
    simp [hbefore.1, hafter.1]
  have hfaults : commitFaults (before ++ events ++ after) = commitFaults events := by
    simp [hbefore.2, hafter.2]
  cases h with
  | answered hid hlog honly =>
    rw [← hfaults]
    exact .answered hid hlog (hanswers.trans honly)
  | failed hnone => exact .failed (hanswers.trans hnone)

theorem Remarks.unanswered {events : List Event} (h : Remarks events) : Unanswered events :=
  h.prelude.unanswered

/-- Only a failed commit changes the unit that was answered. -/
theorem Asked.reply {σ : Type} {c : Collaborators σ} {call : Call} {provider : Provider}
    {work sent : Work} {answer : Except DispatchError (Option Work)} {events : List Event}
    (h : Asked c call provider work sent answer events) :
    Reply work.core.id work.core.exceptions sent answer events := by
  cases h with
  | @shared answer =>
    match answer with
    | .error e => exact .error rfl
    | .ok none => exact .nothing rfl
    | .ok (some result) => exact .unreported rfl rfl (by simp [Event.answer?]) rfl
  | uncreated => exact .error rfl
  | unlocked _ _ hnoted hlast =>
    refine .error ?_
    simp [Event.answer?, hnoted.unanswered.1, hlast.unanswered.1]
  | failed _ hlast =>
    refine .error ?_
    simp [Event.answer?, hlast.unanswered.1]
  | @committed _ result =>
    cases result with
    | none => exact .nothing (by simp [Event.answer?])
    | some result => exact .unreported rfl rfl (by simp [Event.answer?]) rfl
  | @uncommitted _ result _ _ _ _ _ _ hnoted hlast =>
    cases result with
    | none =>
      refine .nothing ?_
      simp [Event.answer?, hnoted.unanswered.1, hlast.unanswered.1]
    | some result =>
      refine .unit rfl rfl ?_ ?_
      · simp [Event.answer?, hnoted.unanswered.1, hlast.unanswered.1]
      · simp [Event.commitFault?, hnoted.unanswered.2, hlast.unanswered.2]

namespace Shell
variable {σ : Type}

theorem accept_accepted (result : Work) (logged : Nat) :
    (accept (σ := σ) result logged).Ensures fun work events =>
      work = result.accepted logged ∧ Unanswered events := by
  have hquiet (notes : List Note) : Unanswered (notes.map .note) := by
    have hframing : Framing result.core.id (notes.map .note) := .notes notes
    exact hframing.unanswered
  unfold accept Work.accepted
  dsimp only
  split
  · rw [if_pos (List.isEmpty_iff.mp ‹_›)]
    exact .bind (.noteAll (.pure ⟨rfl, (hquiet _).append .nil⟩))
  · have hfresh : result.core.exceptions.drop logged ≠ [] := fun h => by simp_all
    rw [Work.acceptedStatus, if_neg hfresh, if_neg hfresh]
    exact .bind (.noteAll (.pure ⟨rfl, (hquiet _).append .nil⟩))

theorem takeAnswer_called {id : Uuid} {log : List Fault} (provider : Provider)
    (signature : Signature) {sent : Work} {answer : Except DispatchError (Option Work)}
    {asked : List Event} (hreply : Reply id log sent answer asked) :
    (takeAnswer (σ := σ) provider signature log.length sent answer).Ensures fun work events =>
      Called id log (asked ++ events) work := by
  cases hreply with
  | unit hid hlog hanswers hfaults =>
    refine (accept_accepted _ _).mono fun work events h => ?_
    obtain ⟨rfl, hquiet⟩ := h
    subst hfaults
    exact Called.extend (.answered hid hlog hanswers) .nil hquiet
  | nothing hanswers =>
    exact .bind (.note (.pure (.failed (by simp [hanswers, Event.answer?]))))
  | error hanswers =>
    exact .bind (.note (.pure (.failed (by simp [hanswers, Event.answer?]))))

end Shell

/-- What is taken over of a unit that was sent, is what a call leaves of it. -/
theorem Asked.called {σ : Type} {c : Collaborators σ} {call : Call} {provider : Provider}
    {signature : Signature} {unit sent taken : Work} {answer : Except DispatchError (Option Work)}
    {asked noted : List Event}
    (h : Asked c call provider (unit.outgoing signature) sent answer asked)
    (htaken : (Shell.takeAnswer provider signature unit.core.exceptions.length sent answer :
      Run σ Work).Yields taken noted) :
    Called unit.core.id unit.core.exceptions (asked ++ noted) taken := by
  have hreply := h.reply
  rw [Work.outgoing_id, Work.outgoing_exceptions] at hreply
  exact (Shell.takeAnswer_called provider signature hreply).of_yields htaken

namespace Shell

def answering (provider : Provider) (answer : Work → Work) : Shell Unit where
  config := contested.config
  collaborators :=
    { contested.collaborators with
      find := fun _ _ => (.ok (some (.provider provider)), ())
      invoke := fun _ work _ _ _ => (.ok (some (answer work)), ()) }

def depot : Provider := ⟨"depot", .ofNat 7, false⟩

def supplied : Work := .ofSignature (.ofNat 2) "source" (.net "run" "Supply")

end Shell
end ServiceShell
