import ServiceShell.Proofs.Status
/-!
Every failure is explained: a unit that a dispatch leaves failed has a fault in its log, or a
descendant of it has one. Only a composite that fails for its children has nothing in its own log.
-/
namespace ServiceShell

def Core.Explained (core : Core) : Prop := core.hasFailed → core.exceptions ≠ []

/-- If the unit has failed, its log or that of a descendant says why. -/
def Work.Explained (work : Work) : Prop :=
  work.core.hasFailed → ∃ unit ∈ work.units, unit.core.exceptions ≠ []

/-- A unit that a provider returns in failure comes with a log that says why. -/
def Collaborators.Explain {σ : Type} (c : Collaborators σ) : Prop :=
  ∀ provider sent txn args env result,
    (c.invoke provider sent txn args env).1 = .ok (some result) → result.core.Explained

namespace Core.Explained
variable {core other : Core}

theorem congr (h : core.Explained) (hstatus : other.status = core.status)
    (hlog : other.exceptions = core.exceptions) : other.Explained := by
  unfold Core.Explained Core.hasFailed
  rw [hstatus, hlog]
  exact h

theorem fail (core : Core) (fault : Fault) : (core.fail fault).Explained :=
  fun _ => List.concat_ne_nil fault core.exceptions

theorem running (h : core.status = .running) : core.Explained := by
  unfold Core.Explained Core.hasFailed
  rw [h]
  exact fun hfailed => absurd hfailed Bool.false_ne_true

theorem finish (h : core.Explained) : core.finish.Explained :=
  fun hfailed => h (core.hasFailed_finish ▸ hfailed)

/-- What a stand-in failed with is part of what it hands back. -/
theorem takeBack (h : core.Explained) {result : Core} (hresult : result.Explained) :
    (Shell.takeBack core result).Explained := by
  unfold Shell.takeBack
  dsimp only
  split
  · exact fun _ => List.append_ne_nil_of_right_ne_nil _ (hresult ‹_›)
  · exact fun hfailed => List.append_ne_nil_of_left_ne_nil (h hfailed) _

theorem failWith (core : Core) (faults : List Fault) (summary : String) :
    (Shell.failWith core faults summary).Explained := by
  obtain rfl | ⟨rest, last, rfl⟩ := List.eq_nil_or_concat' faults
  · exact fail core _
  · rw [Shell.failWith_concat]
    exact fail _ last

theorem reportAll (h : core.Explained) (faults : List Fault) : (core.reportAll faults).Explained :=
  fun hfailed => List.append_ne_nil_of_left_ne_nil (h hfailed) faults

theorem withOutcome (h : core.Explained) :
    ∀ outcome : Context × Option Fault, (core.withOutcome outcome).Explained
  | (_, none) => h.congr rfl rfl
  | (_, some fault) => .fail _ fault

/-- A unit that is taken over fails for what it has logged. -/
theorem accepted {result : Work} (h : result.core.Explained) (logged : Nat) :
    (result.accepted logged).core.Explained := by
  unfold Work.accepted
  split
  · exact h
  · rename_i hfresh
    intro _ hnone
    have hnone : result.core.exceptions = [] := hnone
    rw [hnone, List.drop_nil] at hfresh
    exact hfresh rfl

theorem work {unit : Work} (h : unit.core.Explained) : unit.Explained :=
  fun hfailed => ⟨unit, Work.mem_units.mpr (.inr rfl), h hfailed⟩

end Core.Explained

namespace Work.Explained
variable {work : Work}

theorem mapCore (h : work.Explained) {change : Core → Core}
    (hstatus : (change work.core).hasFailed → work.core.hasFailed)
    (hlog : (change work.core).exceptions = work.core.exceptions) :
    (work.mapCore change).Explained := by
  intro hfailed
  obtain ⟨unit, hunit, hne⟩ := h (hstatus hfailed)
  obtain hbelow | rfl := Work.mem_units.mp hunit
  · exact ⟨unit, Work.mem_units.mpr (.inl hbelow), hne⟩
  · exact ⟨_, Work.mem_units.mpr (.inr rfl), hlog.symm ▸ hne⟩

theorem finish (h : work.Explained) : (work.mapCore Core.finish).Explained :=
  h.mapCore (fun hfailed => work.core.hasFailed_finish ▸ hfailed) rfl

theorem of_child {child : Work} (hmem : child ∈ work.children) (hfailed : child.core.hasFailed)
    (h : child.Explained) : work.Explained := by
  obtain ⟨unit, hunit, hne⟩ := h hfailed
  exact fun _ => ⟨unit, Work.mem_units.mpr (.inl ⟨child, hmem, hunit⟩), hne⟩

/-- The result of a unit that failed is the trace of what was logged. -/
theorem finalize (h : work.Explained) (hfailed : work.core.hasFailed) (args : List Argument) :
    ∃ faults, work.finalize args = (.trace faults, work) ∧ faults ≠ [] := by
  obtain ⟨unit, hunit, hne⟩ := h hfailed
  unfold Work.finalize
  split
  · rename_i hlogged
    exact ⟨_, rfl, fun hnone => by simp [hnone] at hlogged⟩
  · refine ⟨_, rfl, fun hnone => hne ?_⟩
    exact List.flatMap_eq_nil_iff.mp hnone unit hunit

end Work.Explained

theorem Work.finalize_hasFailed (work : Work) (args : List Argument) :
    (work.finalize args).2.core.hasFailed = work.core.hasFailed := by
  unfold Work.finalize
  split
  · rfl
  · split
    · rfl
    · cases Argument.request? args <;> rfl

/-- What the dispatch of a unit of some kind leaves says why it has failed. A task says so itself,
since whatever ran in its place has told it. -/
def Kind.Accounts (kind : Kind) (work : Work) : Prop :=
  if kind = .task then work.core.Explained else work.Explained

namespace Kind.Accounts
variable {kind : Kind} {work : Work}

theorem of_core (h : work.core.Explained) : kind.Accounts work := by
  unfold Accounts
  split
  · exact h
  · exact h.work

theorem explained (h : kind.Accounts work) : work.Explained := by
  unfold Accounts at h
  split at h
  · exact h.work
  · exact h

theorem finish (h : kind.Accounts work) : kind.Accounts (work.mapCore Core.finish) := by
  unfold Accounts at h ⊢
  split at h
  · rw [if_pos ‹_›]
    exact h.finish
  · rw [if_neg ‹_›]
    exact h.finish

end Kind.Accounts

def Run.Leaves {σ : Type} (x : Run σ Attempt) (P : Work → Prop) : Prop :=
  x.Ensures fun attempt _ => ∀ route, attempt.result = .ok route → P attempt.work

namespace Run.Leaves
variable {σ α : Type} {P : Work → Prop}

theorem error (work : Work) (error : DispatchError) :
    Run.Leaves (σ := σ) (Pure.pure ⟨work, .error error⟩) P :=
  Ensures.pure fun _ hroute => by cases hroute

theorem pure {attempt : Attempt} (h : P attempt.work) :
    Run.Leaves (σ := σ) (Pure.pure attempt) P :=
  Ensures.pure fun _ _ => h

theorem bind {x : Run σ α} {f : α → Run σ Attempt}
    (h : x.Ensures fun value _ => (f value).Leaves P) : (x >>= f).Leaves P :=
  Ensures.bind (h.mono fun _ _ hf => Ensures.mono hf fun _ _ hleaves => hleaves)

end Run.Leaves

theorem Asked.explained {σ : Type} {c : Collaborators σ} (hanswers : c.Explain) {call : Call}
    {provider : Provider} {work sent : Work} {answer : Except DispatchError (Option Work)}
    {events : List Event} (h : Asked c call provider work sent answer events) {result : Work}
    (hresult : answer = .ok (some result)) : result.core.Explained := by
  have hanswered {sent : Work} (hanswer : c.Answers provider sent call.txn call.args
      (.ok (some result))) : result.core.Explained := by
    obtain ⟨env, hanswer⟩ := hanswer
    exact hanswers provider sent call.txn call.args env result hanswer
  cases h with
  | @shared answer _ hanswer =>
    cases answer with
    | error e => cases hresult
    | ok =>
      obtain rfl := Except.ok.inj hresult
      exact hanswered hanswer
  | uncreated | unlocked | failed => cases hresult
  | committed _ hanswer =>
    obtain rfl := Except.ok.inj hresult
    exact hanswered hanswer
  | uncommitted _ hanswer =>
    obtain ⟨returned, rfl, rfl⟩ := Option.map_eq_some_iff.mp (Except.ok.inj hresult)
    obtain ⟨env, hanswer⟩ := hanswer
    exact (hanswers _ _ _ _ env returned hanswer).reportAll [_]

namespace Shell
variable {σ : Type} (shell : Shell σ)

theorem takeAnswer_explained (provider : Provider) (signature : Signature) (logged : Nat)
    (sent : Work) {answer : Except DispatchError (Option Work)}
    (h : ∀ result, answer = .ok (some result) → result.core.Explained) :
    (takeAnswer (σ := σ) provider signature logged sent answer).Ensures fun work _ =>
      work.core.Explained := by
  unfold takeAnswer
  split
  · refine (accept_accepted _ logged).mono fun work _ haccepted => ?_
    rw [haccepted.1]
    exact (h _ rfl).accepted logged
  · exact .bind (.note (.pure (.fail _ _)))
  · exact .bind (.note (.pure (.fail _ _)))

theorem Worked.explained {core ended : Core} (hworked : Worked core ended) (h : core.Explained) :
    ended.Explained := by
  cases hworked with
  | computed outcome => exact h.withOutcome outcome
  | operated signature outcome =>
    have hnoted : (core.mapControl (·.noteService signature)).Explained := h.congr rfl rfl
    exact hnoted.withOutcome outcome

section Around
variable {kind : Kind}

/-- An error that stops an execution is logged as a fault. -/
theorem supervise_accounts {call : Call} {work : Work} {execute : Work → Run σ Attempt}
    (h : (execute work).Leaves kind.Accounts) :
    (shell.supervise call work execute).Ensures fun ended _ => kind.Accounts ended.work := by
  refine shell.supervise_ensures (fun _ => .of_core (.fail _ _)) fun _ => Run.Ensures.mono h
    fun attempt _ hleaves _ hcloses => ?_
  cases hcloses with
  | kept => exact hleaves _ rfl
  | failed => exact hleaves _ rfl
  | aborted => exact .of_core (.fail _ _)

theorem proceed_leaves {call : Call} {work : Work} {route : Core → Bool → Run σ Attempt}
    (h : ∀ context resuming,
      (route (Core.setStatus { work.core with context } .running) resuming).Leaves kind.Accounts) :
    (proceed call work route).Leaves kind.Accounts := by
  refine proceed_ensures (fun _ _ _ _ _ _ hroute => by cases hroute) fun running hstarts => ?_
  obtain ⟨context, -, rfl⟩ := hstarts
  refine Run.Ensures.mono (h context _) fun attempt _ hleaves _ _ _ route hroute => ?_
  obtain ⟨left, result⟩ := attempt
  cases result with
  | error e => cases hroute
  | ok => exact (hleaves route hroute).finish

theorem dispatchReady_accounts {call : Call} {unit : Work}
    (hexecute : ∀ context resuming,
      (shell.execute call (Core.setStatus { unit.core with context } .running) resuming
        unit.body).Leaves unit.kind.Accounts) :
    (shell.dispatchReady call unit).Ensures fun ended _ => unit.kind.Accounts ended.work :=
  shell.supervise_accounts (proceed_leaves hexecute)

end Around

section Tasks
variable {shell}

theorem runStep_explained (call : Call) (core : Core) (signature : Signature) (h : core.Explained) :
    (shell.runStep call core signature).Ensures fun ended _ => ended.1.Explained :=
  (shell.runStep_context call core signature).mono fun ended _ hended => by
    obtain ⟨context, hended⟩ := hended
    exact h.congr (by rw [hended]) (by rw [hended])

theorem runFlow_explained (call : Call) {core : Core} (h : core.Explained) :
    (runFlow (shell.runStep call) core).Ensures fun core _ => core.Explained :=
  runFlow_keeps (runStep_explained call)
    (fun core faults summary _ => .failWith core faults summary) h

/-- A unit that runs in place of a task explains its failure to that one. -/
theorem givenOver_explained {core : Core} (h : core.Explained) (standIn : Work) (body : Body Work)
    {ended : Dispatched} (hended : ended.work.core.Explained) :
    (givenOver (served core standIn) body ended).work.core.Explained := by
  have hserved : (served core standIn).Explained := by
    unfold served
    split
    · exact h.congr rfl rfl
    · exact h
  obtain ⟨work, result⟩ := ended
  cases result with
  | error e => exact hserved
  | ok => exact hserved.takeBack hended

theorem Served.explained {call : Call} {signature : Signature} {unit : Work}
    {handle : Except DispatchError Handle} {attempt : Attempt} {inside : List Event}
    (h : Served shell call signature unit handle attempt inside)
    (hanswers : shell.collaborators.Explain) (hunit : unit.core.Explained)
    (hstandIn : unit.kind = .task → ∀ id operation,
      (shell.dispatchReady call.deeper (standInUnit id unit.core signature operation)).Ensures
        fun ended _ => ended.work.core.Explained) {route : Route}
    (hroute : attempt.result = .ok route) : attempt.work.core.Explained := by
  cases h with
  | unresolved => cases hroute
  | unlockable => cases hroute
  | unfit => cases hroute
  | @called provider sent taken answer asked noted hasked htaken =>
    exact (takeAnswer_explained provider signature _ sent fun result hresult =>
      hasked.explained hanswers hresult).of_yields htaken
  | stoodIn hkind hended =>
    exact givenOver_explained hunit _ _ ((hstandIn hkind _ _).of_yields hended)

theorem Sent.explained {call : Call} {work : Work} {attempt : Attempt} {events : List Event}
    (h : Sent shell call work attempt events) (hanswers : shell.collaborators.Explain)
    (hwork : work.core.Explained)
    (hstandIn : work.kind = .task → ∀ id core signature operation,
      (shell.dispatchReady call.deeper (standInUnit id core signature operation)).Ensures
        fun ended _ => ended.work.core.Explained) {route : Route}
    (hroute : attempt.result = .ok route) : attempt.work.core.Explained := by
  cases h with
  | unselectable => exact .fail _ _
  | served _ _ hserved =>
    exact hserved.explained hanswers (hwork.congr rfl rfl)
      (fun hkind id operation => hstandIn hkind id _ _ operation) hroute

end Tasks

section Composites

def FailsForChild (core : Core) (children : List Work) : Prop :=
  core.hasFailed → ∃ child ∈ children, child.core.hasFailed ∧ child.Explained

theorem FailsForChild.explained {core : Core} {body : Body Work} {children : List Work}
    (h : FailsForChild core children) (hchildren : Work.children ⟨core, body⟩ = children) :
    Work.Explained ⟨core, body⟩ := by
  intro hfailed
  obtain ⟨child, hmem, hchild, hexplained⟩ := h hfailed
  exact Work.Explained.of_child (hchildren ▸ hmem) hchild hexplained hfailed

theorem Runner.runIn_explained {runner : Runner σ}
    (h : runner.Always fun run => run.Ensures fun ended _ => ended.work.Explained) (kind : Kind)
    (parent : String) (context : Context) :
    (runner.runIn kind parent context).Ensures fun child _ => child.Explained := by
  intro world
  rw [runner.runIn_value]
  exact (h _ world).mapCore id rfl

variable {runners : List (Runner σ)}
  (h : ∀ runner ∈ runners, runner.Always fun run => run.Ensures fun ended _ => ended.work.Explained)
include h

theorem runJobChildren_explained (job : String) (resuming : Bool) (context : Context) :
    (runJobChildren job resuming context runners).Ensures fun run _ =>
      ∀ child ∈ run.failed, child ∈ run.children ∧ child.core.hasFailed ∧ child.Explained := by
  induction runners generalizing context with
  | nil => exact .pure (by simp)
  | cons runner rest ih =>
    obtain ⟨hrunner, hrest⟩ := List.forall_mem_cons.mp h
    unfold runJobChildren
    split
    · refine .bind ((ih hrest context).mono fun later _ hlater => .pure fun child hchild => ?_)
      exact (hlater child hchild).imp_left (List.mem_cons_of_mem _)
    · refine .bind ((Runner.runIn_explained hrunner .job job context).mono fun ran _ hran => ?_)
      refine .bind ((ih hrest _).mono fun later _ hlater => .pure fun child hchild => ?_)
      dsimp only at hchild
      split at hchild
      · obtain rfl | hchild := List.mem_cons.mp hchild
        · exact ⟨List.mem_cons_self, ‹_›, hran⟩
        · exact (hlater child hchild).imp_left (List.mem_cons_of_mem _)
      · exact (hlater child hchild).imp_left (List.mem_cons_of_mem _)

theorem runBlockChildren_explained (block : String) (resuming : Bool) (context : Context) :
    (runBlockChildren block resuming context runners).Ensures fun run _ =>
      ∀ child ∈ run.failed, child ∈ run.children ∧ child.core.hasFailed ∧ child.Explained := by
  induction runners generalizing context with
  | nil => exact .pure (by simp)
  | cons runner rest ih =>
    obtain ⟨hrunner, hrest⟩ := List.forall_mem_cons.mp h
    unfold runBlockChildren
    split
    · refine .bind ((ih hrest context).mono fun later _ hlater => .pure fun child hchild => ?_)
      exact (hlater child hchild).imp_left (List.mem_cons_of_mem _)
    · refine .bind ((Runner.runIn_explained hrunner .block block context).mono fun ran _ hran => ?_)
      dsimp only
      split
      · refine .bind (.note (.pure fun child hchild => ?_))
        obtain rfl := List.mem_singleton.mp hchild
        exact ⟨List.mem_cons_self, ‹_›, hran⟩
      · refine .bind ((ih hrest _).mono fun later _ hlater => .pure fun child hchild => ?_)
        exact (hlater child hchild).imp_left (List.mem_cons_of_mem _)

theorem runJob_explained {core : Core} (hrunning : core.status = .running) (resuming : Bool) :
    (runJob core resuming runners).Ensures fun ended _ => FailsForChild ended.1 ended.2 := by
  have hunfailed : ¬ core.hasFailed := by simp [Core.hasFailed, hrunning, State.isFailure]
  unfold runJob
  refine .bind ((runJobChildren_explained h core.name resuming core.context).mono
    fun run _ hfailed => ?_)
  dsimp only
  split
  · exact .pure fun hcore => absurd hcore hunfailed
  · rename_i hsome
    obtain ⟨child, hchild⟩ := List.exists_mem_of_ne_nil run.failed (by simpa using hsome)
    exact .bind (.note (.pure fun _ => ⟨child, hfailed child hchild⟩))

theorem runBlock_explained {core : Core} (hrunning : core.status = .running) (resuming : Bool) :
    (runBlock core resuming runners).Ensures fun ended _ => FailsForChild ended.1 ended.2 := by
  have hunfailed : ¬ core.hasFailed := by simp [Core.hasFailed, hrunning, State.isFailure]
  unfold runBlock
  refine .bind ((runBlockChildren_explained h core.name resuming core.context).mono
    fun run _ hfailed => ?_)
  dsimp only
  split
  · exact .pure fun hcore => absurd hcore hunfailed
  · rename_i child _ hsome
    exact .pure fun _ => ⟨child, hfailed child (by simp [hsome])⟩

end Composites

variable {shell}

/-- By induction on what is dispatched inside: a composite fails for a child that explains its own
failure, and a task logs what the unit in its place has failed with. -/
theorem execute_explained (hanswers : shell.collaborators.Explain) (core : Core) (body : Body Work)
    (call : Call) (hrunning : core.status = .running) (resuming : Bool) :
    (shell.execute call core resuming body).Leaves (Work.kind ⟨core, body⟩).Accounts := by
  induction core, body using execution_induction generalizing call resuming with
  | step core body ih =>
    have hinside {unit : Work} (hinvolves : Involves core body unit) (call : Call) :
        (shell.dispatchReady call unit).Ensures fun ended _ => unit.kind.Accounts ended.work :=
      shell.dispatchReady_accounts fun context resuming =>
        ih unit hinvolves context call rfl resuming
    have hexplained : core.Explained := .running hrunning
    have hway := shell.execute_way call core resuming body
    generalize shell.execute call core resuming body = x at hway ⊢
    cases hway with
    | own hown =>
      exact .bind (hown.worked.mono fun _ _ hworked => .pure (.of_core (hworked.explained
        hexplained)))
    | flow =>
      exact .bind ((runFlow_explained call hexplained).mono fun _ _ hran => .pure (.of_core hran))
    | unordered => exact .bind (.of_forall fun _ _ => .error _ _)
    | errand =>
      refine .map ((hinside (.errand _) call.deeper).mono fun ended _ hended route _ => ?_)
      exact .of_core (givenOver_explained hexplained _ _ hended)
    | sent hdeparts =>
      refine (shell.send_sent call _).mono fun attempt events hsent route hroute => .of_core ?_
      exact hsent.explained hanswers hexplained (fun hkind id other signature operation =>
        hinside (hdeparts.involves hkind id other signature operation) call.deeper) hroute
    | job =>
      refine .bind ((runJob_explained (shell.always_runners fun child hchild scope => ?_) hrunning
        resuming).mono fun _ _ hended => .pure (hended.explained rfl))
      exact (hinside (.child scope (Job.mem_of_mem_arrange hchild)) call.inner).mono
        fun _ _ hended => hended.explained
    | block =>
      refine .bind ((runBlock_explained (shell.always_runners fun child hchild scope => ?_) hrunning
        resuming).mono fun _ _ hended => .pure (hended.explained rfl))
      exact (hinside (.child scope hchild) call.inner).mono fun _ _ hended => hended.explained

theorem Dispatches.explained (hanswers : shell.collaborators.Explain) {call : Call} {work : Work}
    {entered : Except DispatchError Work} {run : Run σ Dispatched}
    (h : shell.Dispatches call work entered run) (world : World σ) :
    (run world).value.work.Explained := by
  obtain ⟨core, fault, hfailed⟩ | ⟨ready, route, -, -, hexecuted⟩ := h.failed_or_executed world
  · refine Core.Explained.work ?_
    rw [hfailed]
    exact .fail core fault
  · have hleaves : (shell.executeReady call ready).Leaves ready.kind.Accounts :=
      proceed_leaves fun _ resuming => execute_explained hanswers _ ready.body call rfl resuming
    have hwork := hleaves world route
    rw [hexecuted] at hwork
    exact (hwork rfl).explained

/-- An evaluation dispatches the unit, and returns an error or takes the result. -/
theorem evaluate_value {work : Work} (hopen : work.core.context.finalized = false)
    (args : List Argument) (world : World σ) :
    let unit := (shell.trySubmit work none args world).value.work
    let ended := (shell.evaluate work args world).value
    (∃ error, ended = (unit, .error error)) ∨
      ended = ((unit.finalize args).2, .ok (unit.finalize args).1) := by
  unfold evaluate
  dsimp only
  rw [if_neg (by simp [hopen]), Run.bind_apply]
  dsimp only
  generalize shell.trySubmit work none args world = submitted
  obtain ⟨⟨unit, result⟩, later, events⟩ := submitted
  cases result with
  | ok => exact .inr rfl
  | error e =>
    dsimp only
    cases e.rootCause with
    | configuration m => exact .inl ⟨e, rfl⟩
    | _ => exact .inr rfl

/-- A failure is always explained, as long as providers explain theirs: whatever dispatch leaves a
unit failed, the unit or a descendant has logged a fault, and the result that is taken of it is a
trace with at least one fault. So is the answer to an evaluation that returns one. -/
theorem failure_explained (hanswers : shell.collaborators.Explain) :
    (∀ call work entered run, shell.Dispatches call work entered run → ∀ world,
      let unit := (run world).value.work
      unit.core.hasFailed → (∃ other ∈ unit.units, other.core.exceptions ≠ []) ∧
        ∀ args, ∃ faults, (unit.finalize args).1 = .trace faults ∧ faults ≠ []) ∧
    (∀ work args world, work.core.context.finalized = false →
      let ended := (shell.evaluate work args world).value
      ended.1.core.hasFailed → (∃ error, ended.2 = .error error) ∨
        ∃ faults, ended.2 = .ok (.trace faults) ∧ faults ≠ []) := by
  refine ⟨?_, ?_⟩
  · intro call work entered run h world unit hfailed
    have hexplained : unit.Explained := h.explained hanswers world
    refine ⟨hexplained hfailed, fun args => ?_⟩
    obtain ⟨faults, hfinalize, hne⟩ := hexplained.finalize hfailed args
    exact ⟨faults, congrArg Prod.fst hfinalize, hne⟩
  · intro work args world hopen ended hfailed
    obtain ⟨error, herror⟩ | htaken := shell.evaluate_value hopen args world
    · exact .inl ⟨error, congrArg Prod.snd herror⟩
    · have hexplained := (Dispatches.root ⟨0, none, none, args⟩ work).explained hanswers world
      have hended : ended = _ := htaken
      rw [hended, Work.finalize_hasFailed] at hfailed
      obtain ⟨faults, hfinalize, hne⟩ := hexplained.finalize hfailed args
      refine .inr ⟨faults, ?_, hne⟩
      rw [hended]
      exact congrArg Except.ok (congrArg Prod.fst hfinalize)

def undelivered : Work := ⟨Core.fresh (.ofNat 1) "delivery", .job [] [supplied]⟩

def sold : Fault := .exception "sold out"

/-- The job itself has nothing to say; its trace tells what the depot logged. -/
theorem failure_explained_undelivered :
    let shell := answering depot fun work => work.mapCore (·.fail sold)
    let unit := (shell.dispatch ⟨0, none, none, []⟩ undelivered ⟨(), .empty 20 1000⟩).value.work
    shell.collaborators.Explain ∧ unit.core.hasFailed ∧ unit.core.exceptions = [] ∧
      ∃ faults, (unit.finalize []).1 = .trace faults ∧ faults ≠ [] := by
  intro shell unit
  have hanswers : shell.collaborators.Explain := by
    intro provider sent txn args env result hanswer
    obtain rfl := Option.some.inj (Except.ok.inj hanswer)
    exact Core.Explained.fail sent.core sold
  have hfailed : unit.core.hasFailed := by decide
  obtain ⟨hdispatches, -⟩ := failure_explained hanswers
  have hroot := hdispatches _ undelivered _ _ (.root ⟨0, none, none, []⟩ undelivered)
    ⟨(), .empty 20 1000⟩ hfailed
  exact ⟨hanswers, hfailed, by decide, hroot.2 []⟩

end Shell
end ServiceShell
