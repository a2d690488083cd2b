import ServiceShell.Proofs.Sending
/-!
The calls of providers, lock service and transaction manager: which of them belong together, whose
turn it is to be sent, what a signature was resolved to in front of them, and which transactions are
open between them.
-/
namespace ServiceShell

namespace Event

/-- The dispatch of a unit, what is asked in order to find a provider for it, and the calls that are
made for it. -/
def isTurn : Event → Bool
  | dispatched .. | located .. | found .. | pinged .. | invoked .. | created _ | locked ..
  | committed .. | aborted .. => true
  | _ => false

/-- The transactions that are open behind an event, given those that are open in front of it. -/
def track (opened : List Transaction) : Event → List Transaction
  | created (.ok txn) => txn :: opened
  | committed txn (.ok ()) => opened.erase txn
  | aborted txn _ => opened.erase txn
  | _ => opened

end Event

def openTransactions (events : List Event) : List Transaction := events.foldl Event.track []

def lockKey (signature : Signature) (provider : Provider) : String :=
  s!"{signature.type}:{provider.id}"

structure Turn where
  unit : Uuid
  signature : Signature

def Work.turn (work : Work) (queueName : String) : Turn :=
  ⟨work.core.id, work.correctedSignature queueName⟩

namespace Turn

def asking (turn : Turn) (call : Call) : Turn :=
  { turn with signature := Shell.requestedSignature call turn.signature }

structure Sends (turn : Turn) (sent : Work) : Prop where
  unit : sent.core.id = turn.unit
  signature : sent.core.processSignature = some turn.signature

end Turn

/-- The calls for one unit that is sent to a provider: just that of the provider, or the bracket
around it. A bracket ends where no transaction or no lock is to be had, and else closes behind the
call of the provider. -/
inductive Exchange (turn : Turn) (provider : Provider) : List Event → Prop
  | shared {sent : Work} {txn : Option Transaction} {args : List Argument}
      {answer : Except RemoteError (Option Work)} :
    provider.exclusive = false → turn.Sends sent →
      Exchange turn provider [.invoked provider sent txn args answer]
  | uncreated {error : RemoteError} : provider.exclusive = true →
    Exchange turn provider [.created (.error error)]
  | unlocked {txn : Transaction} {granted : Except RemoteError Bool}
      {aborted : Except RemoteError Unit} :
    provider.exclusive = true → granted ≠ .ok true →
      Exchange turn provider [.created (.ok txn),
        .locked (lockKey turn.signature provider) turn.unit txn granted, .aborted txn aborted]
  | failed {txn : Transaction} {sent : Work} {ambient : Option Transaction} {args : List Argument}
      {error : RemoteError} {aborted : Except RemoteError Unit} :
    provider.exclusive = true → turn.Sends sent →
      Exchange turn provider [.created (.ok txn),
        .locked (lockKey turn.signature provider) turn.unit txn (.ok true),
        .invoked provider sent ambient args (.error error), .aborted txn aborted]
  | committed {txn : Transaction} {sent : Work} {ambient : Option Transaction}
      {args : List Argument} {result : Option Work} :
    provider.exclusive = true → turn.Sends sent →
      Exchange turn provider [.created (.ok txn),
        .locked (lockKey turn.signature provider) turn.unit txn (.ok true),
        .invoked provider sent ambient args (.ok result), .committed txn (.ok ())]
  | uncommitted {txn : Transaction} {sent : Work} {ambient : Option Transaction}
      {args : List Argument} {result : Option Work} {error : RemoteError}
      {aborted : Except RemoteError Unit} :
    provider.exclusive = true → turn.Sends sent →
      Exchange turn provider [.created (.ok txn),
        .locked (lockKey turn.signature provider) turn.unit txn (.ok true),
        .invoked provider sent ambient args (.ok result), .committed txn (.error error),
        .aborted txn aborted]

/-- The history is that of a resolution of the signature. It comes to the provider, whose ping is
the last thing that was asked. -/
structure Collaborators.ComesTo {σ : Type} (c : Collaborators σ) (signature : Signature)
    (provider : Provider) (asked : List Event) : Prop where
  resolved : (c.resolve signature).Yields (.ok (.provider provider)) asked
  alive : ∃ earlier, asked = earlier ++ [.pinged provider (.ok ())]

/-- The history is that of a resolution of the signature, which comes to nobody who may be called:
there is no provider, or it is to be called under a lock and there is no lock service. -/
def Collaborators.ComesToNobody {σ : Type} (c : Collaborators σ) (signature : Signature)
    (asked : List Event) : Prop :=
  ∃ handle, (c.resolve signature).Yields handle asked ∧
    ∀ provider, handle = .ok (.provider provider) → provider.exclusive = true ∧ c.exclusion = none

/-- Dispatches in which units take turns: behind the dispatch of a unit its signature is resolved at
most once, and right behind that there is an exchange with the provider that it came to, for that
unit. In front of the first dispatch this is done only for the unit whose turn it is already. -/
inductive Turns {σ : Type} (shell : Shell σ) : Option Turn → List Event → Prop
  | nil {turn : Option Turn} : Turns shell turn []
  | dispatched {turn : Option Turn} {depth : Nat} {unit : Work} {rest : List Event} :
    Turns shell (some (unit.turn shell.config.queueName)) rest →
      Turns shell turn (.dispatched depth unit :: rest)
  | exchange {turn : Turn} {provider : Provider} {asked calls rest : List Event} :
    shell.collaborators.ComesTo turn.signature provider asked → Exchange turn provider calls →
      Turns shell none rest →
        Turns shell (some turn) (asked.filter Event.isTurn ++ (calls ++ rest))
  | unserved {turn : Turn} {asked rest : List Event} :
    shell.collaborators.ComesToNobody turn.signature asked → Turns shell none rest →
      Turns shell (some turn) (asked.filter Event.isTurn ++ rest)

namespace Turns
variable {σ : Type} {shell : Shell σ} {turn : Option Turn} {events later : List Event}

theorem weaken (h : Turns shell none events) : Turns shell turn events := by
  cases h with
  | nil => exact .nil
  | dispatched hrest => exact .dispatched hrest

theorem append (h : Turns shell turn events) (hlater : Turns shell none later) :
    Turns shell turn (events ++ later) := by
  induction h with
  | nil => exact hlater.weaken
  | dispatched _ ih => exact .dispatched ih
  | exchange hcomes hexchange _ ih =>
    rw [List.append_assoc, List.append_assoc]
    exact .exchange hcomes hexchange ih
  | unserved hnobody _ ih =>
    rw [List.append_assoc]
    exact .unserved hnobody ih

end Turns

theorem Event.track_of_not_isCall {event : Event} (h : event.isCall = false)
    (opened : List Transaction) : event.track opened = opened := by
  cases event <;> simp_all [isCall, track]

theorem Event.track_of_not_isTurn {event : Event} (h : ¬ event.isTurn) (opened : List Transaction) :
    event.track opened = opened := by
  cases event <;> simp_all [isTurn, track]

theorem openTransactions_filter (events : List Event) :
    openTransactions (events.filter Event.isTurn) = openTransactions events := by
  have hsame : (fun opened (event : Event) =>
      if event.isTurn then Event.track opened event else opened) = Event.track := by
    funext opened event
    split
    · rfl
    · exact (Event.track_of_not_isTurn ‹_› opened).symm
  rw [openTransactions, List.foldl_filter, hsame]
  rfl

/-- The calls right behind which an exclusive provider may be called with a unit. -/
def Admits (provider : Provider) (sent : Work) (calls : List Event) : Prop :=
  ∃ earlier txn signature, sent.core.processSignature = some signature ∧
    calls = earlier ++ [.created (.ok txn),
      .locked (lockKey signature provider) sent.core.id txn (.ok true)]

/-- No transaction is left open, none is created while another one is open, and an exclusive
provider is called only under its lock. -/
structure Bracketed (events : List Event) : Prop where
  closed : openTransactions events = []
  single : ∀ count, (openTransactions (events.take count)).length ≤ 1
  guarded : ∀ before provider sent ambient args answer after,
    events = before ++ .invoked provider sent ambient args answer :: after →
      provider.exclusive = true → Admits provider sent (before.filter Event.isTurn)

namespace Bracketed
variable {events later : List Event}

theorem nil : Bracketed [] :=
  ⟨rfl, fun count => by simp [openTransactions], by simp⟩

theorem append (h : Bracketed events) (hlater : Bracketed later) :
    Bracketed (events ++ later) := by
  have hthrough (more : List Event) :
      openTransactions (events ++ more) = openTransactions more := by
    rw [openTransactions, List.foldl_append, ← openTransactions, h.closed]
    rfl
  refine ⟨(hthrough later).trans hlater.closed, fun count => ?_, ?_⟩
  · rw [List.take_append]
    by_cases hshort : count ≤ events.length
    · rw [Nat.sub_eq_zero_of_le hshort, List.take_zero, List.append_nil]
      exact h.single count
    · rw [List.take_of_length_le (Nat.le_of_not_le hshort), hthrough]
      exact hlater.single _
  · intro before provider sent ambient args answer after hevents hexclusive
    have hlater (first : List Event)
        (hrest : later = first ++ .invoked provider sent ambient args answer :: after) :
        Admits provider sent ((events ++ first).filter Event.isTurn) := by
      obtain ⟨earlier, txn, signature, hsignature, hfirst⟩ :=
        hlater.guarded _ _ _ _ _ _ _ hrest hexclusive
      refine ⟨events.filter Event.isTurn ++ earlier, txn, signature, hsignature, ?_⟩
      rw [List.filter_append, hfirst, List.append_assoc]
    -- the call is made behind the first events, or among them
    obtain ⟨first, rfl, hrest⟩ | ⟨rest, hfirst, hrest⟩ := List.append_eq_append_iff.mp hevents
    · exact hlater first hrest
    · obtain ⟨rfl, hcall⟩ | ⟨more, rfl, -⟩ := List.cons_eq_append_iff.mp hrest
      · rw [List.append_nil] at hfirst
        simpa [hfirst] using hlater [] hcall
      · exact h.guarded _ _ _ _ _ _ _ hfirst hexclusive

/-- Where no provider is called and no transaction begins or ends, there is nothing to bracket. -/
theorem of_uncalled (h : ∀ event ∈ events, event.isCall = false) : Bracketed events := by
  have hopened (first : List Event) (hfirst : first ⊆ events) : openTransactions first = [] := by
    induction first with
    | nil => rfl
    | cons event rest ih =>
      obtain ⟨hevent, hrest⟩ := List.cons_subset.mp hfirst
      rw [openTransactions, List.foldl_cons, Event.track_of_not_isCall (h event hevent)]
      exact ih hrest
  refine ⟨hopened events (List.Subset.refl events), fun count => ?_, ?_⟩
  · rw [hopened _ (List.take_subset count events)]
    exact Nat.zero_le 1
  · rintro before provider sent ambient args answer after rfl
    cases h _ (List.mem_append_right before List.mem_cons_self)

theorem dispatched (h : Bracketed events) (depth : Nat) (unit : Work) :
    Bracketed (.dispatched depth unit :: events) := by
  have hfirst : Bracketed [.dispatched depth unit] :=
    of_uncalled (List.forall_mem_singleton.mpr rfl)
  exact hfirst.append h

theorem of_resolution {σ : Type} {c : Collaborators σ} {signature : Signature}
    {handle : Except DispatchError Handle} (h : (c.resolve signature).Yields handle events) :
    Bracketed (events.filter Event.isTurn) := by
  have hprelude := ((c.resolves_resolve signature).of_yields h).prelude
  refine of_uncalled fun event hevent => ?_
  have hevent := hprelude event (List.mem_of_mem_filter hevent)
  cases event <;> first | rfl | cases hevent

theorem of_filter (h : Bracketed (events.filter Event.isTurn)) : Bracketed events := by
  refine ⟨(openTransactions_filter events).symm.trans h.closed, fun count => ?_, ?_⟩
  · rw [← openTransactions_filter,
      List.prefix_iff_eq_take.mp ((List.take_prefix count events).filter Event.isTurn)]
    exact h.single _
  · rintro before provider sent ambient args answer after rfl hexclusive
    have hadmits := h.guarded _ _ _ _ _ _ _ (List.filter_append ..) hexclusive
    simpa only [List.filter_filter, Bool.and_self] using hadmits

end Bracketed

theorem Turn.Sends.admits {turn : Turn} {sent : Work} (h : turn.Sends sent) (provider : Provider)
    (txn : Transaction) : Admits provider sent [.created (.ok txn),
      .locked (lockKey turn.signature provider) turn.unit txn (.ok true)] :=
  ⟨[], txn, turn.signature, h.signature, by rw [h.unit]; rfl⟩

/-- Each exchange is over before something else is done. -/
theorem Exchange.bracketed {turn : Turn} {provider : Provider} {calls : List Event}
    (h : Exchange turn provider calls) : Bracketed calls := by
  refine ⟨?_, fun count => ?_, ?_⟩
  · cases h <;> simp [openTransactions, Event.track]
  · cases h <;> rcases count with _ | _ | _ | _ | _ | count <;> simp [openTransactions, Event.track]
  · intro before other sent ambient args answer after hcalls hexclusive
    have hcall : calls[before.length]? = some (.invoked other sent ambient args answer) := by
      simp [hcalls]
    have hbefore : before = calls.take before.length := by simp [hcalls]
    generalize before.length = count at hcall hbefore
    subst hbefore
    clear hcalls
    cases h with
    | shared hshared =>
      rcases count with _ | count <;> simp at hcall
      obtain ⟨rfl, -⟩ := hcall
      simp [hshared] at hexclusive
    | uncreated => rcases count with _ | count <;> simp at hcall
    | unlocked => rcases count with _ | _ | _ | count <;> simp at hcall
    | failed _ hsends =>
      rcases count with _ | _ | _ | _ | count <;> simp at hcall
      obtain ⟨rfl, rfl, -⟩ := hcall
      exact hsends.admits provider _
    | committed _ hsends =>
      rcases count with _ | _ | _ | _ | count <;> simp at hcall
      obtain ⟨rfl, rfl, -⟩ := hcall
      exact hsends.admits provider _
    | uncommitted _ hsends =>
      rcases count with _ | _ | _ | _ | _ | count <;> simp at hcall
      obtain ⟨rfl, rfl, -⟩ := hcall
      exact hsends.admits provider _

theorem Turns.bracketed {σ : Type} {shell : Shell σ} {turn : Option Turn} {events : List Event}
    (h : Turns shell turn events) : Bracketed events := by
  induction h with
  | nil => exact .nil
  | dispatched _ ih => exact ih.dispatched _ _
  | exchange hcomes hexchange _ ih =>
    exact (Bracketed.of_resolution hcomes.resolved).append (hexchange.bracketed.append ih)
  | unserved hnobody _ ih =>
    obtain ⟨handle, hresolved, -⟩ := hnobody
    exact (Bracketed.of_resolution hresolved).append ih

end ServiceShell
