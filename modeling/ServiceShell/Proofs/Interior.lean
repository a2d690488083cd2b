import ServiceShell.Proofs.Bracket
/-!
What happens inside of a dispatch between the dispatches that are made there: in none of it does a
dispatch begin or end, and none is refused.
-/
namespace ServiceShell

namespace Event

def isBoundary : Event → Bool
  | note (.refused _) | dispatched .. | recorded _ | flushed => true
  | _ => false

def store? : Event → Option (String × Json.Value)
  | stored slot value => some (slot, value)
  | _ => none

def isInner (event : Event) : Bool := !event.isBoundary && event.store?.isNone

theorem isBoundary_of_isInner {event : Event} (h : event.isInner) : event.isBoundary = false := by
  simp_all [isInner]

/-- Code runs in this process, or somebody outside of it is asked. -/
def isLogic : Event → Bool
  | note _ | dispatched .. | stored .. | recorded _ | flushed => false
  | _ => true

theorem isLogic_of_isRemark {event : Event} (h : event.isRemark) :
    event.isBoundary = false ∧ event.isLogic = false := by
  cases event with
  | note n => cases n <;> first | exact ⟨rfl, rfl⟩ | cases h
  | _ => cases h

theorem isInner_of_isPrelude {event : Event} (h : event.isPrelude) : event.isInner := by
  cases event with
  | note n => cases n <;> first | rfl | cases h
  | _ => first | rfl | cases h

theorem isInner_of_isWork {event : Event} (h : event.isWork) : event.isInner := by
  cases event with
  | note n => cases n <;> first | rfl | cases h
  | _ => first | rfl | cases h

end Event

def Inner (events : List Event) : Prop := ∀ event ∈ events, event.isInner

theorem Inner.append {events later : List Event} (h : Inner events) (hlater : Inner later) :
    Inner (events ++ later) :=
  List.forall_mem_append.mpr ⟨h, hlater⟩

theorem Prelude.inner {events : List Event} (h : Prelude events) : Inner events :=
  fun event hevent => Event.isInner_of_isPrelude (h event hevent)

theorem Remarks.inner {events : List Event} (h : Remarks events) : Inner events :=
  h.prelude.inner

theorem Asked.inner {σ : Type} {c : Collaborators σ} {call : Call} {provider : Provider}
    {work sent : Work} {answer : Except DispatchError (Option Work)} {events : List Event}
    (h : Asked c call provider work sent answer events) : Inner events := by
  intro event hevent
  obtain hcall | hremark := h.calls event hevent
  · cases event <;> first | rfl | cases hcall
  · exact Event.isInner_of_isPrelude (Event.isPrelude_of_isRemark hremark)

end ServiceShell
