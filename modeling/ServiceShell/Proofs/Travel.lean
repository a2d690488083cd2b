import ServiceShell.Proofs.Answer
/-!
Which signatures travel. A unit is sent without those that are carried out in this process, of
whatever fidelity of whatever unit of the tree. The errands that wait on its tasks are no units of
the tree: they are sent with all their signatures.
-/
namespace ServiceShell

namespace Work

def errands (work : Work) : List Errand :=
  match work.body with
  | .task _ errands => errands
  | _ => []

def signatures (work : Work) : List Signature :=
  work.units.flatMap (·.core.fidelities.signatures)

/-- The signatures of the errands that wait on a unit and on its descendants. -/
def pending (work : Work) : List Signature :=
  work.units.flatMap (·.errands.flatMap (·.core.fidelities.signatures))

theorem signatures_eq (work : Work) : work.signatures =
    work.children.flatMap signatures ++ work.core.fidelities.signatures :=
  flatMap_units _ work

theorem pending_eq (work : Work) : work.pending = work.children.flatMap pending ++
    work.errands.flatMap (·.core.fidelities.signatures) :=
  flatMap_units _ work

theorem mem_pending_of_child {work child : Work} (h : child ∈ work.children)
    {signature : Signature} (hwaits : signature ∈ child.pending) : signature ∈ work.pending := by
  rw [pending_eq]
  exact List.mem_append_left _ (List.mem_flatMap.mpr ⟨child, h, hwaits⟩)

@[simp] theorem mapUnits_errands (change : Work → Core) (work : Work) :
    (work.mapUnits change).errands = work.errands := by
  obtain ⟨core, body⟩ := work
  cases body <;> rfl

theorem pending_mapUnits (change : Work → Core) (work : Work) :
    (work.mapUnits change).pending = work.pending := by
  simp only [pending, units_mapUnits, List.flatMap_map, mapUnits_errands]

theorem signatures_strip (work : Work) :
    work.strip.signatures = work.signatures.filter Signature.isTransportable := by
  simp only [strip, signatures, units_mapUnits, List.flatMap_map, mapUnits_core,
    List.filter_flatMap]
  refine List.flatMap_congr fun unit _ => ?_
  exact Fidelities.signatures_strip unit.core.fidelities

theorem pending_strip (work : Work) : work.strip.pending = work.pending :=
  pending_mapUnits _ work

@[simp] theorem pending_mapCore (change : Core → Core) (work : Work) :
    (work.mapCore change).pending = work.pending := by
  rw [pending_eq, pending_eq]
  rfl

theorem mem_pending_below {work : Work} (h : work.errands = []) {signature : Signature} :
    signature ∈ work.pending ↔ ∃ child ∈ work.children, signature ∈ child.pending := by
  rw [pending_eq, h, List.flatMap_nil, List.append_nil, List.mem_flatMap]

/-- The unit can travel as it is, except that errands wait on it whose signatures are in
`waiting`. -/
structure TravelsBut (work : Work) (waiting : Signature → Prop) : Prop where
  own : ∀ signature ∈ work.signatures, signature.isTransportable
  pending : ∀ signature ∈ work.pending, waiting signature

theorem TravelsBut.mapCore {work : Work} {waiting : Signature → Prop} (h : work.TravelsBut waiting)
    (change : Core → Core) (hchange : (change work.core).fidelities = work.core.fidelities) :
    (work.mapCore change).TravelsBut waiting where
  own := by
    have hown := h.own
    rw [signatures_eq] at hown ⊢
    rw [← hchange] at hown
    exact hown
  pending := by
    rw [pending_mapCore]
    exact h.pending

theorem travelsBut_strip {work : Work} {waiting : Signature → Prop}
    (hpending : ∀ signature ∈ work.pending, waiting signature) : work.strip.TravelsBut waiting where
  own := by
    rw [signatures_strip]
    exact fun signature h => (List.mem_filter.mp h).2
  pending := by
    rw [pending_strip]
    exact hpending

end Work

/-- A unit that is sent can travel, but for the errands in `waiting`. -/
def Event.Carries (waiting : Signature → Prop) : Event → Prop
  | invoked _ sent _ _ _ => sent.TravelsBut waiting
  | _ => True

theorem Prelude.carries {waiting : Signature → Prop} {events : List Event} (h : Prelude events) :
    ∀ event ∈ events, event.Carries waiting := by
  intro event hevent
  have hprelude := h event hevent
  cases event <;> trivial

theorem Run.carries_composes {σ : Type} (waiting : Signature → Prop) :
    Run.Composes fun _ (x : Run σ _) => x.Only (·.Carries waiting) where
  pure := .pure
  note _ _ := .note trivial
  bind hx hf := hx.bind hf

theorem Work.TravelsBut.held {work : Work} {waiting : Signature → Prop}
    (h : work.TravelsBut waiting) (provider : Provider) : (work.held provider).TravelsBut waiting :=
  h.mapCore _ rfl

theorem Asked.carries {σ : Type} {c : Collaborators σ} {call : Call} {provider : Provider}
    {work sent : Work} {answer : Except DispatchError (Option Work)} {events : List Event}
    (h : Asked c call provider work sent answer events) {waiting : Signature → Prop}
    (htravels : work.TravelsBut waiting) : ∀ event ∈ events, event.Carries waiting := by
  have hheld := htravels.held provider
  have hremarks {events : List Event} (h : Remarks events) :
      ∀ event ∈ events, event.Carries waiting := h.prelude.carries
  cases h with
  | shared => simpa [Event.Carries] using htravels
  | uncreated => simp [Event.Carries]
  | unlocked _ _ hnoted hlast =>
    simpa [Event.Carries, or_imp, forall_and] using ⟨hremarks hnoted, hremarks hlast⟩
  | failed _ hlast => simpa [Event.Carries, hheld] using hremarks hlast
  | committed => simpa [Event.Carries] using hheld
  | uncommitted _ _ hnoted hlast =>
    simpa [Event.Carries, hheld, or_imp, forall_and] using ⟨hremarks hnoted, hremarks hlast⟩

namespace Shell
variable {σ : Type} (shell : Shell σ) {waiting : Signature → Prop}

theorem supervise_carries {call : Call} {work : Work} {execute : Work → Run σ Attempt}
    (hexecute : (execute work).Only (·.Carries waiting)) :
    (shell.supervise call work execute).Only (·.Carries waiting) := by
  have hinside : (execute work).Ensures fun _ events => ∀ event ∈ events, event.Carries waiting :=
    hexecute
  refine shell.supervise_ensures (fun _ => by simp [Event.Carries]) fun _ =>
    hinside.mono fun attempt inside hinside after hcloses => ?_
  refine List.forall_mem_cons.mpr ⟨trivial, List.forall_mem_cons.mpr ⟨trivial, ?_⟩⟩
  refine List.forall_mem_append.mpr ⟨hinside, fun event hevent => ?_⟩
  have hframe := hcloses.framing work.core.id event hevent
  cases event <;> trivial

theorem proceed_carries {call : Call} {work : Work} {route : Core → Bool → Run σ Attempt}
    (hroute : ∀ context resuming, (route (Core.setStatus { work.core with context } .running)
      resuming).Only (·.Carries waiting)) :
    (proceed call work route).Only (·.Carries waiting) := by
  have hbefore {earlier : List Event} (h : Prelude earlier) :
      ∀ event ∈ earlier, event.Carries waiting := h.carries
  refine proceed_ensures (fun _ _ _ hprelude _ => hbefore hprelude) fun running hstarts => ?_
  obtain ⟨context, -, rfl⟩ := hstarts
  exact Run.Ensures.mono (hroute context _) fun _ _ hlater _ hprelude _ =>
    List.forall_mem_append.mpr ⟨hbefore hprelude, hlater⟩

section Execution
variable {shell} {core : Core} {body : Body Work}

/-- What is sent has been stripped. -/
theorem Sent.carries {call : Call} {work : Work} {attempt : Attempt} {events : List Event}
    (h : Sent shell call work attempt events)
    (hpending : ∀ signature ∈ work.pending, waiting signature)
    (hstandIn : work.kind = .task → ∀ id core signature operation, (shell.dispatchReady call.deeper
      (standInUnit id core signature operation)).Only (·.Carries waiting)) :
    ∀ event ∈ events, event.Carries waiting := by
  have htravels : ((shell.sentUnit call work).outgoing (shell.sentSignature call work)).TravelsBut
      waiting := by
    refine (Work.travelsBut_strip ?_).mapCore _ rfl
    rw [sentUnit, Work.pending_mapCore]
    exact hpending
  cases h with
  | unselectable hnoted => exact hnoted.prelude.carries
  | served hnoted hasked hserved =>
    have hresolved := ((shell.collaborators.resolves_resolve _).of_yields hasked).prelude
    refine List.forall_mem_append.mpr ⟨hnoted.prelude.carries, ?_⟩
    refine List.forall_mem_append.mpr ⟨hresolved.carries, ?_⟩
    cases hserved with
    | unresolved | unlockable | unfit => simp
    | stoodIn hkind hended => exact (hstandIn hkind _ _ _ _).of_yields hended
    | @called provider sent taken answer _ noted hcalls htaken =>
      have hnoted : Remarks noted :=
        (takeAnswer_remarks provider _ _ sent answer).of_yields htaken
      exact List.forall_mem_append.mpr ⟨hcalls.carries htravels, hnoted.prelude.carries⟩

/-- Only a composite is sent with something that waits, and that waits below it. -/
theorem Departs.pending {sent : Body Work} (h : Departs core body sent) {signature : Signature}
    (hwaits : signature ∈ Work.pending ⟨core, sent⟩) :
    ∃ child ∈ Work.children ⟨core, body⟩, signature ∈ child.pending := by
  have herrands : Work.errands ⟨core, sent⟩ = [] := by cases h <;> rfl
  obtain ⟨child, hchild, hwaits⟩ := (Work.mem_pending_below herrands).mp hwaits
  exact ⟨child, h.children hchild, hwaits⟩

/-- Only a child has anything below it. -/
theorem Involves.pending {unit : Work} (h : Involves core body unit)
    (hpending : ∀ child ∈ Work.children ⟨core, body⟩, ∀ signature ∈ child.pending,
      waiting signature) :
    ∀ child ∈ unit.children, ∀ signature ∈ child.pending, waiting signature := by
  cases h with
  | @child _ child scope hchild =>
    intro grandchild hgrandchild signature hwaits
    have hbelow : grandchild ∈ child.children := hgrandchild
    exact hpending child hchild signature (Work.mem_pending_of_child hbelow hwaits)
  | _ => exact fun _ hnone => absurd hnone List.not_mem_nil

end Execution

/-- By induction on what is dispatched inside: what waits on the children of a composite is sent
with it, and a task is sent when all its errands are used up. -/
theorem execute_carries (core : Core) (body : Body Work) (call : Call) (resuming : Bool)
    (hpending : ∀ child ∈ Work.children ⟨core, body⟩, ∀ signature ∈ child.pending,
      waiting signature) :
    (shell.execute call core resuming body).Only (·.Carries waiting) := by
  induction core, body using execution_induction generalizing call resuming with
  | step core body ih =>
    have hinside {unit : Work} (hinvolves : Involves core body unit) (call : Call) :
        (shell.dispatchReady call unit).Only (·.Carries waiting) := by
      refine shell.supervise_carries (proceed_carries fun context resuming => ?_)
      exact ih unit hinvolves context call resuming (hinvolves.pending hpending)
    have hcomposes := Run.carries_composes (σ := σ) waiting
    have hworks (event : Event) (h : event.isWork) : event.Carries waiting := by
      cases event <;> trivial
    have hway := shell.execute_way call core resuming body
    generalize shell.execute call core resuming body = x at hway ⊢
    cases hway with
    | own hown => exact (hown.works.mono hworks).bind fun _ => .pure _
    | flow hflow =>
      refine (hcomposes.runFlow fun other signature hmem => ?_).bind fun _ => .pure _
      exact hcomposes.runStep shell (.draw _) fun id =>
        hinside (.step id other hflow hmem) call.inner
    | errand => exact (hinside (.errand _) call.deeper).map _
    | sent hdeparts =>
      refine (shell.send_sent call _).mono fun attempt events hsent => hsent.carries ?_ ?_
      · intro signature hwaits
        obtain ⟨child, hchild, hwaits⟩ := hdeparts.pending hwaits
        exact hpending child hchild signature hwaits
      · exact fun hkind id other signature operation =>
          hinside (hdeparts.involves hkind id other signature operation) call.deeper
    | unordered =>
      exact .bind (.noteAll fun _ _ => trivial) fun _ => .pure _
    | job =>
      refine (hcomposes.runJob (shell.always_runners fun child hchild scope => ?_) core
        resuming).bind fun _ => .pure _
      exact hinside (.child scope (Job.mem_of_mem_arrange hchild)) call.inner
    | block =>
      refine (hcomposes.runBlock (shell.always_runners fun child hchild scope => ?_) core
        resuming).bind fun _ => .pure _
      exact hinside (.child scope hchild) call.inner

theorem prepare_pending {args : List Argument} {work ready : Work}
    (hprepare : prepare args work = .ok ready) :
    ready.children.flatMap Work.pending = work.children.flatMap Work.pending := by
  have hreset (work : Work) : (work.reset args).children.flatMap Work.pending =
      work.children.flatMap Work.pending := by
    unfold Work.reset
    split
    · simp only [Work.mapUnits_children, List.flatMap_map, Work.pending_mapUnits]
    · rfl
  obtain ⟨chosen, -, rfl⟩ := exists_readied hprepare
  exact readied_keeps (·.children.flatMap Work.pending) hreset rfl

namespace Dispatches
variable {shell} {call : Call} {work ready : Work} {entered : Except DispatchError Work}
  {run : Run σ Dispatched}

theorem ready_pending (h : shell.Dispatches call work entered run) (hready : entered = .ok ready) :
    ready.children.flatMap Work.pending = work.children.flatMap Work.pending := by
  cases h with
  | root => exact prepare_pending hready
  | _ =>
    obtain rfl := Except.ok.inj hready
    rfl

/-- Only what can travel is sent, in whatever dispatch: no signature of the unit that is sent, in
any fidelity of any unit of its tree, is carried out in this process. What the errands on its tasks
own is sent as it is, and these are errands that waited below the unit of the dispatch. -/
theorem sent_travels (h : shell.Dispatches call work entered run) (world : World σ)
    {provider : Provider} {sent : Work} {txn : Option Transaction} {args : List Argument}
    {answer : Except RemoteError (Option Work)}
    (hsent : .invoked provider sent txn args answer ∈ (run world).events) :
    (∀ signature ∈ sent.signatures, signature.isTransportable) ∧
      ∀ signature ∈ sent.pending, ∃ child ∈ work.children, signature ∈ child.pending := by
  have hexecute : (shell.executeEntered call entered work).Only (·.Carries fun signature =>
      ∃ child ∈ work.children, signature ∈ child.pending) := by
    unfold executeEntered
    cases hready : entered with
    | error e => exact .pure _
    | ok ready =>
      have hpending := h.ready_pending hready
      have hbelow : ∀ child ∈ ready.children, ∀ signature ∈ child.pending,
          ∃ child ∈ work.children, signature ∈ child.pending := by
        intro child hchild signature hwaits
        rw [← List.mem_flatMap, ← hpending]
        exact List.mem_flatMap.mpr ⟨child, hchild, hwaits⟩
      exact proceed_carries fun _ resuming =>
        shell.execute_carries _ ready.body call resuming hbelow
  obtain ⟨later, hlater, hrun⟩ := h.apply world
  rw [hrun] at hsent
  obtain hsent | hsent := List.mem_append.mp hsent
  · have htravels := shell.supervise_carries hexecute world _ hsent
    exact ⟨htravels.own, htravels.pending⟩
  · exact absurd (hlater _ hsent) id

end Dispatches

def idle : Operation := fun _ context => (context, none)

def wholesale : Work :=
  let errand := Work.ofSignature (.ofNat 4) "stock" (.object "run" "Stock" idle)
  let child := Work.ofSignature (.ofNat 3) "local" (.object "run" "Local" idle)
  let order := Work.ofSignature (.ofNat 2) "order" (.net "exert" "Jobber")
  ⟨order.core, .block (.named "order") [⟨child.core, .task none [⟨errand.core, none⟩]⟩]⟩

def wholesaleEvents : List Event :=
  ((answering depot id).dispatch ⟨0, none, none, []⟩ wholesale ⟨(), .empty 20 1000⟩).events

theorem wholesale_sent : ∃ sent, .invoked depot sent none [] (.ok (some sent)) ∈ wholesaleEvents ∧
    sent.pending = [.object "run" "Stock" idle] := by
  have hcalls : wholesaleEvents.filter Event.isCall = [.invoked depot _ none [] (.ok (some _))] :=
    rfl
  have hsent := List.mem_filter.mp (hcalls ▸ List.mem_singleton_self _)
  exact ⟨_, hsent.1, rfl⟩

/-- The operation of the task does not travel with the block. -/
theorem sent_travels_wholesale : ∃ sent,
    .invoked depot sent none [] (.ok (some sent)) ∈ wholesaleEvents ∧
      (∀ signature ∈ sent.signatures, signature.isTransportable) ∧
      ∀ signature ∈ sent.pending, ∃ child ∈ wholesale.children, signature ∈ child.pending := by
  obtain ⟨sent, hsent, -⟩ := wholesale_sent
  exact ⟨sent, hsent, Dispatches.sent_travels (.root _ _) _ hsent⟩

/-- That of the errand is sent. -/
theorem errand_sent_with_operation : ∃ sent,
    .invoked depot sent none [] (.ok (some sent)) ∈ wholesaleEvents ∧
      ∃ signature ∈ sent.pending, signature.target = some idle := by
  obtain ⟨sent, hsent, hpending⟩ := wholesale_sent
  exact ⟨sent, hsent, _, by rw [hpending]; exact List.mem_singleton_self _, rfl⟩

end Shell
end ServiceShell
