import ServiceShell.Proofs.Bracket
import ServiceShell.Proofs.Fidelity
/-!
In a dispatch, each unit is sent in its own turn and under its own signature, and exclusive
providers are called in brackets.
-/
namespace ServiceShell

theorem Framing.filter_isTurn {owner : Uuid} {events : List Event} (h : Framing owner events) :
    events.filter Event.isTurn = [] := by
  refine List.filter_eq_nil_iff.mpr fun event hevent => ?_
  have hframe := h event hevent
  cases event <;> simp_all [Event.IsFrame, Event.isTurn]

def Run.Silent {σ α : Type} (x : Run σ α) : Prop :=
  x.Ensures fun _ events => events.filter Event.isTurn = []

/-- In all dispatches the units take turns, and it is that of one of them already. -/
def Run.Takes {σ α : Type} (shell : Shell σ) (turn : Option Turn) (x : Run σ α) : Prop :=
  x.Ensures fun _ events => Turns shell turn (events.filter Event.isTurn)

namespace Run
variable {σ α β : Type} {shell : Shell σ} {turn : Option Turn} {x : Run σ α} {f : α → Run σ β}

theorem Takes.weaken (h : x.Takes shell none) : x.Takes shell turn :=
  Ensures.mono h fun _ _ hturns => hturns.weaken

theorem takes_pure {value : α} : (Pure.pure value : Run σ α).Takes shell turn :=
  Ensures.pure .nil

theorem Takes.bind (h : x.Takes shell turn) (hf : ∀ value, (f value).Takes shell none) :
    (x >>= f).Takes shell turn :=
  Ensures.bind (Ensures.mono h fun value events hturns =>
    Ensures.mono (hf value) fun last later hlater => by
      rw [List.filter_append]
      exact hturns.append hlater)

theorem takes_of_silent {post : α → Prop}
    (h : x.Ensures fun value events => events.filter Event.isTurn = [] ∧ post value)
    (hf : ∀ value, post value → (f value).Takes shell turn) : (x >>= f).Takes shell turn :=
  Ensures.bind (Ensures.mono h fun value events hsilent =>
    Ensures.mono (hf value hsilent.2) fun last later hlater => by
      rw [List.filter_append, hsilent.1]
      exact hlater)

theorem Silent.bind (h : x.Silent) (hf : ∀ value, (f value).Takes shell turn) :
    (x >>= f).Takes shell turn := by
  have hsilent : x.Ensures fun _ events => events.filter Event.isTurn = [] ∧ True :=
    Ensures.mono h fun _ _ hnone => ⟨hnone, trivial⟩
  exact takes_of_silent hsilent fun value _ => hf value

theorem silent_noteAll {notes : List Note} : (Run.noteAll notes : Run σ Unit).Silent :=
  Ensures.noteAll (by simp [Event.isTurn])

theorem Only.silent (h : x.Only (·.isWork)) : x.Silent :=
  Ensures.mono h fun _ _ hworks => List.filter_eq_nil_iff.mpr fun event hevent => by
    have hwork := hworks event hevent
    cases event <;> simp_all [Event.isWork, Event.isRemark, Event.isTurn]

theorem takes_composes : Run.Composes fun _ (x : Run σ _) => x.Takes shell none where
  pure _ := takes_pure
  note _ _ := Ensures.note .nil
  bind hx hf := hx.bind hf

end Run

theorem Exclusion.key_eq_lockKey {turn : Turn} {work : Work} (h : turn.Sends work)
    (provider : Provider) : key work provider = lockKey turn.signature provider := by
  unfold key lockKey
  rw [h.signature]

theorem Remarks.filter_isTurn {events : List Event} (h : Remarks events) :
    events.filter Event.isTurn = [] := by
  refine List.filter_eq_nil_iff.mpr fun event hevent => ?_
  have hremark := h event hevent
  cases event <;> simp_all [Event.isRemark, Event.isTurn]

theorem Turn.Sends.held {turn : Turn} {work : Work} (h : turn.Sends work) (provider : Provider) :
    turn.Sends (work.held provider) :=
  ⟨h.unit, h.signature⟩

/-- The calls of a provider that is asked make up an exchange. -/
theorem Asked.exchange {σ : Type} {c : Collaborators σ} {call : Call} {provider : Provider}
    {work sent : Work} {answer : Except DispatchError (Option Work)} {events : List Event}
    (h : Asked c call provider work sent answer events) {turn : Turn} (hsends : turn.Sends work) :
    Exchange turn provider (events.filter Event.isTurn) := by
  have hkey := Exclusion.key_eq_lockKey hsends provider
  cases h with
  | shared hshared => exact .shared hshared hsends
  | uncreated hexclusive => exact .uncreated hexclusive
  | unlocked hexclusive hdenied hnoted hlast =>
    simp only [List.filter_cons, List.filter_append, hnoted.filter_isTurn, hlast.filter_isTurn,
      hkey, hsends.unit]
    exact .unlocked hexclusive hdenied
  | failed hexclusive hlast =>
    simp only [List.filter_cons, hlast.filter_isTurn, hkey, hsends.unit]
    exact .failed hexclusive (hsends.held provider)
  | committed hexclusive =>
    rw [hkey, hsends.unit]
    exact .committed hexclusive (hsends.held provider)
  | uncommitted hexclusive _ hnoted hlast =>
    simp only [List.filter_cons, List.filter_append, hnoted.filter_isTurn, hlast.filter_isTurn,
      hkey, hsends.unit]
    exact .uncommitted hexclusive (hsends.held provider)

theorem Work.Travels.corrected {work : Work} (h : work.Travels) (queueName : String) :
    (work.correctedSignature queueName).target = none := by
  rw [correctedSignature_target, requestedSignature]
  cases hsignature : work.core.processSignature with
  | none => rfl
  | some signature => exact h signature hsignature

theorem Work.Travels.target {work : Work} (h : work.Travels) (call : Call) (queueName : String) :
    (Shell.requestedSignature call (work.correctedSignature queueName)).target = none :=
  (Shell.requestedSignature_target ..).trans (h.corrected queueName)

namespace Shell
variable {σ : Type} (shell : Shell σ)

theorem supervise_turns {call : Call} {work : Work} {execute : Work → Run σ Attempt}
    {turn : Option Turn} (hexecute : (execute work).Takes shell turn) :
    (shell.supervise call work execute).Ensures fun _ events => ∃ rest, Turns shell turn rest ∧
      events.filter Event.isTurn =
        if shell.config.maxDelegationDepth < call.depth then []
        else .dispatched call.depth work :: rest := by
  refine shell.supervise_ensures (fun hdeep => ⟨[], .nil, by rw [if_pos hdeep]; rfl⟩) fun hdepth =>
    hexecute.mono fun attempt inside hturns after hcloses => ⟨_, hturns, ?_⟩
  have hafter := (hcloses.framing work.core.id).filter_isTurn
  rw [if_neg (Nat.not_lt.mpr hdepth)]
  simp [List.filter_cons, Event.isTurn, hafter]

theorem supervise_takes {call : Call} {work : Work} {execute : Work → Run σ Attempt}
    {turn : Option Turn}
    (hexecute : (execute work).Takes shell (some (work.turn shell.config.queueName))) :
    (shell.supervise call work execute).Takes shell turn :=
  (shell.supervise_turns hexecute).mono fun _ events h => by
    obtain ⟨rest, hrest, hevents⟩ := h
    rw [hevents]
    split
    · exact .nil
    · exact .dispatched hrest

/-- The dependers leave the turn to the route. -/
theorem proceed_takes {call : Call} {work : Work} {route : Core → Bool → Run σ Attempt}
    {turn : Option Turn}
    (hroute : ∀ context resuming,
      (route (Core.setStatus { work.core with context } .running) resuming).Takes shell turn) :
    (proceed call work route).Takes shell turn := by
  refine proceed_ensures (fun _ _ events _ hframing => ?_) fun running hstarts => ?_
  · rw [hframing.filter_isTurn]
    exact .nil
  · obtain ⟨context, -, rfl⟩ := hstarts
    refine (hroute context _).mono fun attempt later hturns earlier _ hframing => ?_
    rw [List.filter_append, hframing.filter_isTurn]
    exact hturns

theorem dispatchReady_takes {call : Call} {unit : Work} {turn : Option Turn}
    (hexecute : ∀ context resuming,
      (shell.execute call (Core.setStatus { unit.core with context } .running) resuming
        unit.body).Takes shell (some (unit.turn shell.config.queueName))) :
    (shell.dispatchReady call unit).Takes shell turn :=
  shell.supervise_takes (shell.proceed_takes hexecute)

theorem sentSignature_role (call : Call) (work : Work) :
    (shell.sentSignature call work).role = .process := by
  have hrole := work.correctedSignature_role shell.config.queueName
  unfold sentSignature requestedSignature
  split
  · split <;> exact hrole
  · exact hrole

/-- Nothing of what cannot travel is sent, but the signature is. -/
theorem sentUnit_sends (call : Call) {work : Work} (h : work.Travels) :
    ((work.turn shell.config.queueName).asking call).Sends
      ((shell.sentUnit call work).outgoing (shell.sentSignature call work)) := by
  have hprocess : (shell.sentUnit call work).core.processSignature =
      some (shell.sentSignature call work) :=
    Fidelities.processSignature_setProcessSignature _ (shell.sentSignature_role call work)
  have hcore := (shell.sentUnit call work).strip_core
  constructor
  · rw [Work.outgoing, Work.mapCore, hcore]
    rfl
  · rw [Work.outgoing, Work.mapCore, hcore]
    exact Fidelities.processSignature_strip hprocess (h.target call _)

variable {shell}

theorem Served.takes {call : Call} {turn : Turn} {unit : Work}
    {handle : Except DispatchError Handle} {attempt : Attempt} {asked inside : List Event}
    (h : Served shell call turn.signature unit handle attempt inside)
    (hasked : (shell.collaborators.resolve turn.signature).Yields handle asked)
    (hsends : turn.Sends (unit.outgoing turn.signature))
    (hstandIn : unit.kind = .task → ∀ id operation,
      (shell.dispatchReady call.deeper
        (standInUnit id unit.core turn.signature operation)).Takes shell none) :
    Turns shell (some turn) ((asked ++ inside).filter Event.isTurn) := by
  have hnobody (hnone : ∀ provider, handle = .ok (.provider provider) →
      provider.exclusive = true ∧ shell.collaborators.exclusion = none) {rest : List Event}
      (hrest : Turns shell none rest) :
      Turns shell (some turn) (asked.filter Event.isTurn ++ rest) :=
    .unserved ⟨handle, hasked, hnone⟩ hrest
  rw [List.filter_append]
  cases h with
  | unresolved => exact hnobody (by simp) .nil
  | unfit => exact hnobody (by simp) .nil
  | unlockable hexclusive hmissing =>
    refine hnobody (fun provider heq => ?_) .nil
    obtain rfl := Handle.provider.inj (Except.ok.inj heq)
    exact ⟨hexclusive, hmissing⟩
  | stoodIn hkind hended => exact hnobody (by simp) ((hstandIn hkind _ _).of_yields hended)
  | @called provider sent taken answer calls noted hcalls htaken =>
    have hnoted : Remarks noted :=
      (takeAnswer_remarks provider turn.signature _ sent answer).of_yields htaken
    have halive := ((shell.collaborators.resolves_resolve _).of_yields hasked).alive provider rfl
    rw [List.filter_append, hnoted.filter_isTurn]
    exact .exchange ⟨hasked, halive⟩ (hcalls.exchange hsends) .nil

/-- The unit goes under the signature that it was corrected to, or under that of the provider asked
for. -/
theorem Sent.takes {call : Call} {work : Work} {attempt : Attempt} {events : List Event}
    (h : Sent shell call work attempt events) (htravels : work.Travels)
    (hstandIn : work.kind = .task → ∀ id core signature operation, (shell.dispatchReady
      call.deeper (standInUnit id core signature operation)).Takes shell none) :
    Turns shell (some ((work.turn shell.config.queueName).asking call))
      (events.filter Event.isTurn) := by
  cases h with
  | unselectable hnoted =>
    rw [hnoted.filter_isTurn]
    exact .nil
  | served hnoted hasked hserved =>
    rw [List.filter_append, hnoted.filter_isTurn]
    exact hserved.takes hasked (shell.sentUnit_sends call htravels)
      fun hkind id operation => hstandIn hkind id _ _ operation

theorem Departs.turn {core : Core} {body sent : Body Work} (h : Departs core body sent)
    (queueName : String) :
    Work.turn ⟨core, sent⟩ queueName = Work.turn ⟨core, body⟩ queueName := by
  cases h <;> rfl

variable (shell)

/-- By induction on what is dispatched inside: whatever that is, a unit is sent in its own turn. -/
theorem execute_takes (core : Core) (body : Body Work) (call : Call) (resuming : Bool) :
    (shell.execute call core resuming body).Takes shell
      (some ((Work.turn ⟨core, body⟩ shell.config.queueName).asking call)) := by
  induction core, body using execution_induction generalizing call resuming with
  | step core body ih =>
    have hinside {unit : Work} (hinvolves : Involves core body unit) (call : Call)
        (hprovider : call.provider = none) : (shell.dispatchReady call unit).Takes shell none := by
      refine shell.dispatchReady_takes fun context resuming => ?_
      have htakes := ih unit hinvolves context call resuming
      rwa [Turn.asking, requestedSignature, hprovider] at htakes
    have hway := shell.execute_way call core resuming body
    generalize shell.execute call core resuming body = x at hway ⊢
    cases hway with
    | own hown => exact hown.works.silent.bind fun _ => Run.takes_pure
    | flow hflow =>
      refine (Run.takes_composes.runFlow fun other signature hmem => ?_).weaken.bind fun _ =>
        Run.takes_pure
      refine Run.takes_composes.runStep shell (.draw fun _ => .nil) fun id => ?_
      exact hinside (.step id other hflow hmem) call.inner rfl
    | sent hdeparts =>
      refine (shell.send_sent call _).mono fun attempt events hsent => ?_
      rw [← hdeparts.turn]
      exact hsent.takes hdeparts.travels fun hkind id other signature operation =>
        hinside (hdeparts.involves hkind id other signature operation) call.deeper rfl
    | errand =>
      exact .map ((hinside (.errand _) call.deeper rfl).weaken)
    | unordered => exact Run.silent_noteAll.bind fun _ => Run.takes_pure
    | job =>
      refine (Run.takes_composes.runJob (shell.always_runners fun child hchild scope => ?_) core
        resuming).weaken.bind fun _ => Run.takes_pure
      exact hinside (.child scope (Job.mem_of_mem_arrange hchild)) call.inner rfl
    | block =>
      refine (Run.takes_composes.runBlock (shell.always_runners fun child hchild scope => ?_) core
        resuming).weaken.bind fun _ => Run.takes_pure
      exact hinside (.child scope hchild) call.inner rfl

def preparedTurn (call : Call) (work : Work) : Option Turn :=
  match prepare call.args work with
  | .ok ready => some ((ready.turn shell.config.queueName).asking call)
  | .error _ => none

theorem dispatch_turns (call : Call) (work : Work) :
    (shell.dispatch call work).Ensures fun _ events => ∃ rest,
      Turns shell (shell.preparedTurn call work) rest ∧ events.filter Event.isTurn =
        if shell.config.maxDelegationDepth < call.depth then []
        else .dispatched call.depth work :: rest := by
  have hexecute : (shell.executePrepared call work).Takes shell (shell.preparedTurn call work) := by
    unfold preparedTurn executePrepared
    cases prepare call.args work with
    | error e => exact Run.takes_pure
    | ok ready =>
      dsimp only
      refine shell.proceed_takes fun context resuming => ?_
      exact shell.execute_takes _ ready.body call resuming
  intro world
  obtain ⟨rest, hrest, hevents⟩ := shell.supervise_turns hexecute world
  rw [shell.dispatch_apply]
  refine ⟨rest, hrest, ?_⟩
  rw [List.filter_append, hevents]
  exact List.append_nil _

/-- The calls of a dispatch are those of exchanges. Each is made for the unit that was dispatched
last, right behind the resolution of the signature that this unit goes under, and with the provider
that the resolution came to. Exclusive providers are called in brackets, one at a time, all of which
are closed. -/
theorem dispatch_calls_bracketed (txn : Option Transaction) (provider : Option String)
    (args : List Argument) (work : Work) (world : World σ) :
    let call : Call := ⟨0, txn, provider, args⟩
    let events := (shell.dispatch call work world).events
    Bracketed events ∧ ∃ rest, Turns shell (shell.preparedTurn call work) rest ∧
      events.filter Event.isTurn = .dispatched 0 work :: rest := by
  intro call events
  obtain ⟨rest, hrest, hevents⟩ := shell.dispatch_turns call work world
  rw [if_neg (Nat.not_lt_zero _)] at hevents
  refine ⟨.of_filter ?_, rest, hrest, hevents⟩
  rw [hevents]
  exact hrest.bracketed.dispatched 0 work

def contested : Shell Unit where
  config := .default
  collaborators :=
    { now := fun _ => 0
      freshId := fun _ => (.ofNat 0, ())
      locate := fun _ _ _ => (.ok none, ())
      find := fun _ _ => (.ok (some (.provider ⟨"printer", .ofNat 1, true⟩)), ())
      ping := fun _ _ => (.ok (), ())
      invoke := fun _ work _ _ _ => (.ok (some work), ())
      exclusion := some
        { create := fun _ => (.ok ⟨7⟩, ())
          acquire := fun _ _ _ _ => (.ok true, ())
          commit := fun _ _ => (.error (.unreachable "manager"), ())
          abort := fun _ _ => (.ok (), ()) } }

def contestedEvents : List Event :=
  (contested.dispatch ⟨0, none, none, []⟩ (.ofSignature (.ofNat 2) "page" (.net "print" "Printer"))
    ⟨(), .empty 20 1000⟩).events

/-- A failed commit is followed by an abort of the same transaction. -/
theorem dispatch_calls_bracketed_contested :
    (∃ unit signature key sent, contestedEvents.filter Event.isTurn = [.dispatched 0 unit,
      .found signature (.ok (some (.provider ⟨"printer", .ofNat 1, true⟩))),
      .pinged ⟨"printer", .ofNat 1, true⟩ (.ok ()),
      .created (.ok ⟨7⟩), .locked key (.ofNat 2) ⟨7⟩ (.ok true),
      .invoked ⟨"printer", .ofNat 1, true⟩ sent none [] (.ok (some sent)),
      .committed ⟨7⟩ (.error (.unreachable "manager")), .aborted ⟨7⟩ (.ok ())]) ∧
      openTransactions contestedEvents = [] := by
  have hbracketed : Bracketed contestedEvents :=
    (contested.dispatch_calls_bracketed none none [] _ ⟨(), .empty 20 1000⟩).1
  exact ⟨⟨_, _, _, _, rfl⟩, hbracketed.closed⟩

end Shell
end ServiceShell
