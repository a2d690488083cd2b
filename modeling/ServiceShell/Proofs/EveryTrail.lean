import ServiceShell.Proofs.Exchange
import ServiceShell.Proofs.Trail
/-!
Every dispatch leaves the history of a tree: by induction over the units and the errands of tasks,
each execution tells of the dispatches that it makes, and the dispatch around it opens before them
and reports behind them.
-/
namespace ServiceShell
open Trail (Inside Of)

def Attempt.Relays (attempt : Attempt) (running : Core) (inner : Passage) : Prop :=
  ∀ error, inner.ended.result = .error error → attempt.result = .error error ∧
    attempt.work.core.exceptions = running.exceptions ∧
      attempt.work.core.context = running.context

theorem Attempt.ended_error_iff (attempt : Attempt) :
    (∃ error, attempt.ended.result = .error error) ↔ ∃ error, attempt.result = .error error := by
  obtain ⟨work, result⟩ := attempt
  cases result with
  | ok route => simp [Attempt.ended]
  | error e => simp [Attempt.ended]

theorem Attempt.Relays.relays {attempt : Attempt} {running : Core} {inner : Passage}
    (h : attempt.Relays running inner) {call : Call} {work ready : Work}
    (hstarts : Shell.Starts call ready.core running) {error : DispatchError}
    (herror : inner.ended.result = .error error) (hmarked : error.asRoutine = error) :
    (Passage.mk call work (.ok ready) attempt.ended).Relays error := by
  obtain ⟨hresult, hlog, hcontext⟩ := h error herror
  have hlogged : running.exceptions = ready.core.exceptions := by
    obtain ⟨context, -, hrunning⟩ := hstarts
    rw [hrunning]
    rfl
  have hended : attempt.ended = ⟨attempt.work.mapCore (·.fail error.toFault), .error error⟩ := by
    simp only [Attempt.ended, hresult, hmarked]
  have hfault : error.toFault = .exception error.message := by
    rw [← hmarked]
    cases error <;> rfl
  refine ⟨ready, running, rfl, hstarts, by rw [hended], ?_⟩
  rw [hended, hfault, ← hlogged, ← hlog, ← hcontext]
  exact ⟨rfl, rfl, rfl⟩

/-- An execution of a unit that is ready, which started with a given core, tells of the dispatches
that it makes, and does not take the route of those that are stopped. -/
structure Executed {σ : Type} (shell : Shell σ) (call : Call) (ready : Work) (running : Core)
    (attempt : Attempt) (events : List Event) : Prop where
  route : attempt.result ≠ .ok .aborted
  told : ∃ trails, events = Trail.eventsOf trails ∧
    ∀ trail ∈ trails, trail.Inside shell call ready (attempt.Relays running)

namespace Executed
variable {σ : Type} {shell : Shell σ} {call : Call} {ready : Work} {running : Core}
  {attempt : Attempt} {events earlier : List Event}

theorem of_inner (h : Inner events) (hroute : attempt.result ≠ .ok .aborted) :
    Executed shell call ready running attempt events where
  route := hroute
  told := ⟨events.map .own, (Trail.eventsOf_own _).symm, List.forall_mem_map.mpr fun event hevent =>
    .own (Event.isBoundary_of_isInner (h event hevent))⟩

theorem after (h : Executed shell call ready running attempt events) (hearlier : Inner earlier) :
    Executed shell call ready running attempt (earlier ++ events) := by
  obtain ⟨hroute, trails, rfl, hinside⟩ := h
  refine ⟨hroute, earlier.map .own ++ trails, by simp, List.forall_mem_append.mpr ⟨?_, hinside⟩⟩
  exact List.forall_mem_map.mpr fun event hevent =>
    .own (Event.isBoundary_of_isInner (hearlier event hevent))

end Executed

section Routes
variable {σ α : Type} {shell : Shell σ} {call : Call} {ready : Work} {running : Core}
  {x : Run σ α} {f : α → Attempt}

/-- Only code of the unit runs until the route is known. -/
theorem Run.Only.executed (h : x.Only (·.isWork))
    (hroute : ∀ value, (f value).result ≠ .ok .aborted) :
    (x >>= fun value => Pure.pure (f value)).Ensures (Executed shell call ready running) := by
  refine .bind (Ensures.mono h fun value events hworks => .pure ?_)
  rw [List.append_nil]
  exact .of_inner (fun event hevent => Event.isInner_of_isWork (hworks event hevent)) (hroute value)

theorem Run.TellsOf.executed (h : x.TellsOf (Inside shell call ready fun _ => False))
    (hroute : ∀ value, (f value).result ≠ .ok .aborted) :
    (x >>= fun value => Pure.pure (f value)).Ensures (Executed shell call ready running) := by
  have hall : x.Ensures fun _ events => ∃ trails, events = Trail.eventsOf trails ∧
      ∀ trail ∈ trails, Inside shell call ready (fun _ => False) trail := h
  refine .bind (hall.mono fun value events htold => .pure ⟨hroute value, ?_⟩)
  obtain ⟨trails, rfl, htrails⟩ := htold
  exact ⟨trails, List.append_nil _, fun trail htrail =>
    (htrails trail htrail).mono fun _ hnone => hnone.elim⟩

end Routes

namespace Shell
variable {σ : Type} (shell : Shell σ)

/-- The execution of a unit that is ready tells of the dispatches that it makes. An error of one
that was made in place of the unit ends it, and leaves the unit as it started. -/
def Traced (call : Call) (ready : Work) : Prop :=
  (shell.executeReady call ready).Tells fun attempt trails => attempt.result ≠ .ok .aborted ∧
    ∀ trail ∈ trails, trail.Inside shell call ready fun inner =>
      ∃ running, Starts call ready.core running ∧ attempt.Relays running inner

variable {shell}

theorem traced_of_execute {call : Call} {ready : Work}
    (h : ∀ running resuming, Starts call ready.core running →
      (shell.execute call running resuming ready.body).Ensures
        (Executed shell call ready running)) :
    shell.Traced call ready := by
  unfold Traced Run.Tells executeReady
  refine proceed_ensures (fun context fault events hprelude _ => ?_) fun running hstarts => ?_
  · refine ⟨events.map .own, (Trail.eventsOf_own _).symm, by simp, ?_⟩
    exact List.forall_mem_map.mpr fun event hevent =>
      .own (Event.isBoundary_of_isInner (hprelude.inner event hevent))
  · refine (h running _ hstarts).mono fun attempt later hlater earlier hprelude _ => ?_
    obtain ⟨hroute, trails, hevents, hinside⟩ := hlater.after hprelude.inner
    refine ⟨trails, hevents, ?_, fun trail htrail => ?_⟩
    · rw [Attempt.finished_result]
      exact hroute
    · refine (hinside trail htrail).mono fun inner hrelays => ⟨running, hstarts, ?_⟩
      intro error herror
      obtain ⟨hresult, hlogged, hdata⟩ := hrelays error herror
      obtain ⟨work, result⟩ := attempt
      obtain rfl : result = .error error := hresult
      exact ⟨rfl, hlogged, hdata⟩

/-- Behind the event that announces it, a dispatch that is let pass leaves what its execution
leaves, and then its report. -/
theorem supervise_reported {call : Call} (work : Work) (execute : Work → Run σ Attempt)
    (hdepth : call.depth ≤ shell.config.maxDelegationDepth) (world : World σ) :
    let attempt := execute work world
    let unit := attempt.value.ended.work
    ∃ later after now route,
      shell.supervise call work execute world = ⟨attempt.value.ended, later,
        .dispatched call.depth work :: (.note (.dispatching work.kind work.name) ::
          (attempt.events ++ after) ++ [.recorded (.ofCore now unit.core unit.kind route)])⟩ ∧
      (∀ event ∈ after, event.isBoundary = false ∧ event.isLogic = false) ∧
      (attempt.value.result = .ok route ∨
        route = .aborted ∧ ∃ error, attempt.value.result = .error error) := by
  obtain ⟨after, hcloses, hrun⟩ := shell.supervise_apply hdepth world
  rw [hrun]
  generalize execute work world = attempt at hcloses ⊢
  obtain ⟨⟨unit, result⟩, later, events⟩ := attempt
  cases hcloses with
  | @kept _ route now =>
    refine ⟨later, unit.keeping, now, route, by simp [Attempt.ended], fun event hevent => ?_,
      .inl rfl⟩
    obtain ⟨slot, value, rfl⟩ | hremark := Work.mem_keeping hevent
    · exact ⟨rfl, rfl⟩
    · exact Event.isLogic_of_isRemark hremark
  | @failed _ route now =>
    exact ⟨later, [], now, route, by simp [Attempt.ended], by simp, .inl rfl⟩
  | @aborted _ error now =>
    exact ⟨later, [.note (.dispatchFailed unit.name error.asRoutine)], now, .aborted,
      by simp [Attempt.ended, Work.mapCore, Work.kind], by simp [Event.isBoundary, Event.isLogic],
      .inr ⟨rfl, error, rfl⟩⟩

theorem supervise_asRoutine {call : Call} {work : Work} {execute : Work → Run σ Attempt}
    {world : World σ} {error : DispatchError}
    (h : (shell.supervise call work execute world).value.result = .error error) :
    error.asRoutine = error := by
  have hmarked (cause : DispatchError) : cause.asRoutine.asRoutine = cause.asRoutine := by
    cases cause <;> rfl
  by_cases hdepth : call.depth ≤ shell.config.maxDelegationDepth
  · rw [shell.supervise_value hdepth] at h
    generalize (execute work world).value = attempt at h
    obtain ⟨unit, result⟩ := attempt
    cases result with
    | ok route => cases h
    | error e =>
      obtain rfl := Except.error.inj h
      exact hmarked e
  · rw [shell.supervise_refused (Nat.lt_of_not_le hdepth)] at h
    obtain rfl := Except.error.inj h
    exact hmarked _

theorem executeEntered_tells {call : Call} {entered : Except DispatchError Work}
    (h : ∀ ready, entered = .ok ready → shell.Traced call ready) (work : Work) :
    (shell.executeEntered call entered work).Tells fun attempt trails =>
      attempt.result ≠ .ok .aborted ∧ ∀ trail ∈ trails, ∃ ready, entered = .ok ready ∧
        trail.Inside shell call ready fun inner =>
          ∃ running, Starts call ready.core running ∧ attempt.Relays running inner := by
  cases entered with
  | error e => exact .pure ⟨by simp, by simp⟩
  | ok ready =>
    exact Run.Tells.mono (h ready rfl) fun _ _ ⟨hroute, hinside⟩ =>
      ⟨hroute, fun trail htrail => ⟨ready, rfl, hinside trail htrail⟩⟩

end Shell

theorem Trail.Faithful.ended_asRoutine {σ : Type} {shell : Shell σ} {trail : Trail}
    (h : trail.Faithful shell) {link : Link} {passage : Passage}
    (hmade : trail.made? = some (link, passage)) {error : DispatchError}
    (herror : passage.ended.result = .error error) : error.asRoutine = error := by
  have hoccurs : ∃ events, passage.Occurs shell events := by
    cases h with
    | own => cases hmade
    | refused _ hoccurs =>
      obtain ⟨rfl, rfl⟩ := Prod.mk.inj (Option.some.inj hmade)
      exact ⟨_, hoccurs⟩
    | reported _ hoccurs =>
      obtain ⟨rfl, rfl⟩ := Prod.mk.inj (Option.some.inj hmade)
      exact ⟨_, hoccurs⟩
  obtain ⟨events, world, later, hrun⟩ := hoccurs
  have hended : (shell.supervise passage.call passage.work
      (shell.executeEntered passage.call passage.entered) world).value.result = .error error := by
    rw [hrun]
    exact herror
  exact Shell.supervise_asRoutine hended

/-- What is made inside of an execution is made inside of the dispatch around it. -/
theorem Trail.Inside.makes_in {σ : Type} {shell : Shell σ} {call : Call} {work ready : Work}
    {attempt : Attempt} {trail : Trail}
    (h : trail.Inside shell call ready fun inner =>
      ∃ running, Shell.Starts call ready.core running ∧ attempt.Relays running inner) :
    ∀ link inner, trail.made? = some (link, inner) →
      (Passage.mk call work (.ok ready) attempt.ended).Makes link inner := by
  intro link inner hmade
  obtain ⟨hcall, hentered, hjoins, hrelays⟩ := h.makes link inner hmade
  refine ⟨hcall, hentered, ⟨ready, rfl, hjoins⟩, fun hhops error herror => ?_⟩
  obtain ⟨running, hstarts, hback⟩ := hrelays hhops
  exact hback.relays hstarts herror (h.faithful.ended_asRoutine hmade herror)

namespace Shell
variable {σ : Type} {shell : Shell σ}

/-- A dispatch that is supervised leaves the tree of a unit, whatever made it. -/
theorem supervise_tells (shell : Shell σ) (link : Link) (call : Call) (work : Work)
    (entered : Except DispatchError Work)
    (h : ∀ ready, entered = .ok ready → shell.Traced call ready) :
    (shell.supervise call work (shell.executeEntered call entered)).Tells fun ended trails =>
      ∃ trail, trails = [trail] ∧ trail.Of shell link ⟨call, work, entered, ended⟩ := by
  intro world
  by_cases hdepth : call.depth ≤ shell.config.maxDelegationDepth
  · obtain ⟨trails, hevents, hroute, hinside⟩ := executeEntered_tells h work world
    obtain ⟨later, after, now, route, hrun, hafter, htaken⟩ :=
      supervise_reported work (shell.executeEntered call entered) hdepth world
    generalize (shell.executeEntered call entered work world).value = attempt
      at hroute hinside hrun htaken
    let passage : Passage := ⟨call, work, entered, attempt.ended⟩
    let inside := Trail.own (.note (.dispatching work.kind work.name)) :: (trails ++ after.map .own)
    let entry := TraceEntry.ofCore now attempt.ended.work.core attempt.ended.work.kind route
    have htold : (Trail.reported link passage inside entry).events =
        (shell.supervise call work (shell.executeEntered call entered) world).events := by
      rw [hrun, hevents]
      simp [Trail.events, Trail.eventsOf, inside, passage, entry]
    have hall : ∀ trail ∈ inside, trail.Faithful shell ∧
        ∀ next inner, trail.made? = some (next, inner) → passage.Makes next inner := by
      refine List.forall_mem_cons.mpr ⟨⟨.own rfl, fun _ _ hmade => by cases hmade⟩, ?_⟩
      refine List.forall_mem_append.mpr ⟨fun trail htrail => ?_, ?_⟩
      · obtain ⟨ready, hready, htrail⟩ := hinside trail htrail
        obtain rfl := hready
        exact ⟨htrail.faithful, htrail.makes_in⟩
      · exact List.forall_mem_map.mpr fun event hevent =>
          ⟨.own (hafter event hevent).1, fun _ _ hmade => by cases hmade⟩
    have hreports : passage.Reports entry := by
      refine ⟨now, route, rfl, ?_⟩
      rw [Attempt.ended_error_iff]
      obtain hok | ⟨rfl, herror⟩ := htaken
      · rw [hok] at hroute ⊢
        simpa using hroute
      · exact iff_of_true rfl herror
    refine ⟨[.reported link passage inside entry], ?_, _, rfl, ?_, ?_⟩
    · rw [← htold]
      simp [Trail.eventsOf]
    · refine .reported hdepth ⟨world, later, ?_⟩ hreports
        (fun trail htrail => (hall trail htrail).1) fun trail htrail => (hall trail htrail).2
      rw [htold, hrun]
    · rw [hrun]
      rfl
  · rw [shell.supervise_refused (Nat.lt_of_not_le hdepth)]
    refine ⟨[.refused link ⟨call, work, entered, _⟩ _], rfl, _, rfl, ?_, rfl⟩
    refine .refused (Nat.lt_of_not_le hdepth) ⟨world, world, ?_⟩
    exact shell.supervise_refused (Nat.lt_of_not_le hdepth) world

theorem supervise_ready_tells (link : Link) {call : Call} {unit : Work}
    (h : shell.Traced call unit) :
    (shell.supervise call unit (shell.executeEntered call (.ok unit))).Tells fun ended trails =>
      ∃ trail, trails = [trail] ∧ trail.Of shell link ⟨call, unit, .ok unit, ended⟩ := by
  refine shell.supervise_tells link call unit (.ok unit) fun ready hready => ?_
  obtain rfl := Except.ok.inj hready
  exact h

theorem dispatchReady_tellsOf (link : Link) (hhops : link.hops = 0) {call : Call}
    {ready unit : Work} (h : shell.Traced (link.call call) unit) (hjoins : link.Joins ready unit) :
    (shell.dispatchReady (link.call call) unit).TellsOf (Inside shell call ready fun _ => False) :=
  Run.Tells.mono (supervise_ready_tells link h) fun ended trails htrails => by
    obtain ⟨trail, rfl, hof⟩ := htrails
    exact List.forall_mem_singleton.mpr (.of hof rfl rfl hjoins fun hhopped => by omega)

/-- What a task gets back from the dispatch in its place: an error comes back as it is, and then the
task has the log and the data that it had before. -/
theorem givenOver_executed (link : Link) {call : Call} {ready unit : Work}
    (h : shell.Traced (link.call call) unit) (hjoins : link.Joins ready unit) {core running : Core}
    (hlog : core.exceptions = running.exceptions) (hcontext : core.context = running.context)
    (standIn : Work) (body : Body Work) :
    (shell.dispatchReady (link.call call) unit).Ensures fun ended events =>
      Executed shell call ready running (givenOver (served core standIn) body ended) events := by
  refine Run.Ensures.mono (supervise_ready_tells link h) fun ended events htold => ?_
  obtain ⟨trails, rfl, trail, rfl, hof⟩ := htold
  refine ⟨fun hroute => (by cases givenOver_ok hroute), [trail], rfl, ?_⟩
  refine List.forall_mem_singleton.mpr (.of hof rfl rfl hjoins fun _ error herror => ?_)
  obtain ⟨work, result⟩ := ended
  obtain rfl : result = .error error := herror
  exact ⟨rfl, (served_exceptions core standIn).trans hlog,
    (served_context core standIn).trans hcontext⟩

/-- Only what a task is sent for may be dispatched in its place. -/
theorem Sent.executed {call : Call} {ready work : Work} {attempt : Attempt} {events : List Event}
    (h : Sent shell call work attempt events)
    (hready : work.kind = .task → ∃ model, ready.body = .task model [])
    (hstandIn : work.kind = .task → ∀ id core signature operation,
      shell.Traced call.deeper (standInUnit id core signature operation)) :
    Executed shell call ready work.core attempt events := by
  cases h with
  | unselectable hnoted => exact .of_inner hnoted.inner (by simp)
  | served hnoted hasked hserved =>
    have hresolved := ((shell.collaborators.resolves_resolve _).of_yields hasked).prelude.inner
    refine .after (.after ?_ hresolved) hnoted.inner
    cases hserved with
    | unresolved | unlockable | unfit => exact .of_inner (by simp [Inner]) (by simp)
    | @called provider sent taken answer asked noted hcalls htaken =>
      have hnoted : Remarks noted := (takeAnswer_remarks provider _ _ sent answer).of_yields htaken
      exact .of_inner (hcalls.inner.append hnoted.inner) (by simp)
    | stoodIn hkind hended =>
      obtain ⟨model, hready⟩ := hready hkind
      have hlog : (shell.sentUnit call work).core.exceptions = work.core.exceptions := rfl
      have hcontext : (shell.sentUnit call work).core.context = work.core.context := rfl
      exact (givenOver_executed .standIn (hstandIn hkind _ _ _ _) (.standIn _ _ _ hready) hlog
        hcontext _ _).of_yields hended

/-- By induction on what is dispatched inside: an execution tells of the dispatches that it
makes. -/
theorem execute_executed (core : Core) (body : Body Work) (call : Call) (resuming : Bool)
    {ready : Work} (hbody : ready.body = body) (hsame : core.fidelities = ready.core.fidelities) :
    (shell.execute call core resuming body).Ensures (Executed shell call ready core) := by
  induction core, body using execution_induction generalizing call resuming ready with
  | step core body ih =>
    have hinside {unit : Work} (hinvolves : Involves core body unit) (call : Call) :
        shell.Traced call unit := by
      refine traced_of_execute fun running resuming hstarts => ?_
      obtain ⟨context, -, rfl⟩ := hstarts
      exact ih unit hinvolves context call resuming rfl rfl
    have hcomposes : Run.Composes fun _ (x : Run σ _) =>
        x.TellsOf (Inside shell call ready fun _ => False) := Run.tellsOf_composes fun _ => .own
    have hway := shell.execute_way call core resuming body
    generalize shell.execute call core resuming body = x at hway ⊢
    cases hway with
    | own hown => exact hown.works.executed (by obtain rfl | rfl := hown.route_eq <;> simp)
    | flow hflow =>
      refine (hcomposes.runFlow fun other signature hmem => ?_).executed (by simp)
      refine hcomposes.runStep shell (.draw _) fun id => ?_
      exact dispatchReady_tellsOf .step rfl (hinside (.step id other hflow hmem) call.inner)
        (.step id hbody (hsame ▸ hmem))
    | errand =>
      exact .map (givenOver_executed .errand (hinside (.errand _) call.deeper)
        (.errand core.context hbody) rfl rfl _ _)
    | sent hdeparts =>
      refine (shell.send_sent call _).mono fun attempt events hsent => hsent.executed ?_ ?_
      · intro hkind
        cases hdeparts with
        | task => exact ⟨none, hbody⟩
        | _ => cases hkind
      · exact fun hkind id other signature operation =>
          hinside (hdeparts.involves hkind id other signature operation) call.deeper
    | @unordered _ _ error =>
      refine .bind (.noteAll (.pure ?_))
      rw [List.append_nil]
      refine .of_inner (List.forall_mem_map.mpr fun n hn => ?_) (by simp)
      exact Event.isInner_of_isPrelude (Event.isPrelude_of_isRemark (error.notes_remarks _ n hn))
    | job =>
      refine (hcomposes.runJob (shell.always_runners fun child hchild scope => ?_) core
        resuming).executed (by simp)
      have hchild := Job.mem_of_mem_arrange hchild
      exact dispatchReady_tellsOf .child rfl (hinside (.child scope hchild) call.inner)
        (.child scope (by rwa [Work.children, hbody]))
    | block =>
      refine (hcomposes.runBlock (shell.always_runners fun child hchild scope => ?_) core
        resuming).executed (by simp)
      exact dispatchReady_tellsOf .child rfl (hinside (.child scope hchild) call.inner)
        (.child scope (by rwa [Work.children, hbody]))

theorem traced (call : Call) (work : Work) : shell.Traced call work := by
  refine traced_of_execute fun running resuming hstarts => ?_
  obtain ⟨context, -, rfl⟩ := hstarts
  exact execute_executed _ work.body call resuming rfl rfl

/-- The dispatch of a caller leaves the tree of its unit, and flushes in the end. -/
theorem dispatch_trail (shell : Shell σ) (call : Call) (work : Work) (world : World σ) :
    let run := shell.dispatch call work world
    ∃ trail : Trail, run.events = trail.events ++ [.flushed] ∧
      trail.Of shell .request ⟨call, work, prepare call.args work, run.value⟩ := by
  have hsame : shell.supervise call work (shell.executePrepared call) =
      shell.supervise call work (shell.executeEntered call (prepare call.args work)) :=
    shell.supervise_congr (by
      unfold executePrepared executeEntered
      cases prepare call.args work <;> rfl)
  obtain ⟨trails, hevents, trail, rfl, hof⟩ := shell.supervise_tells .request call work
    (prepare call.args work) (fun ready _ => traced call ready) world
  rw [dispatch_apply, hsame]
  refine ⟨trail, ?_, hof⟩
  rw [hevents]
  simp [Trail.eventsOf]

end Shell
end ServiceShell
