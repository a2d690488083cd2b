import ServiceShell.Proofs.Lockstep
import ServiceShell.Proofs.Sending
/-!
Two shells whose collaborators answer alike: they send units alike, and whatever they dispatch comes
to the same end. Two answers may differ in random ids, but those for the same unit do not differ.
-/
namespace ServiceShell
variable {σ τ : Type}

def Kept (same : Uuid → Uuid → Prop) (id other last otherLast : Uuid) : Prop :=
  same last otherLast ∧ (id = other → last = otherLast)

structure Exclusion.Alike (like : Likeness σ τ) (exclusion : Exclusion σ) (other : Exclusion τ) :
    Prop where
  create : Run.Alike like Eq (Run.ask exclusion.create .created) (Run.ask other.create .created)
  acquire {owner last : Uuid} (key : String) (txn : Transaction) : like.same owner last →
    Run.Alike like Eq (Run.ask (exclusion.acquire key owner txn) (.locked key owner txn))
      (Run.ask (other.acquire key last txn) (.locked key last txn))
  commit (txn : Transaction) : Run.Alike like Eq (Run.ask (exclusion.commit txn) (.committed txn))
    (Run.ask (other.commit txn) (.committed txn))
  abort (txn : Transaction) : Run.Alike like Eq (Run.ask (exclusion.abort txn) (.aborted txn))
    (Run.ask (other.abort txn) (.aborted txn))

structure Likeness.Peers (like : Likeness σ τ) (shell : Shell σ) (other : Shell τ) : Prop
    extends like.Shells shell other where
  queue : other.config.queueName = shell.config.queueName
  resolve (signature : Signature) : Run.Alike like Eq (shell.collaborators.resolve signature)
    (other.collaborators.resolve signature)
  call {work twin : Work} (provider : Provider) (txn : Option Transaction) (args : List Argument) :
    work.Twin like.same twin →
      Run.Alike like (AnswerTwin (Kept like.same work.core.id twin.core.id))
      (shell.collaborators.call provider work txn args)
      (other.collaborators.call provider twin txn args)
  exclusion : Option.Rel (Exclusion.Alike like) shell.collaborators.exclusion
    other.collaborators.exclusion

namespace Work.Twin
variable {same : Uuid → Uuid → Prop} {work twin : Work}

theorem mapCore (h : work.Twin same twin) (change : Core → Core)
    (hchange : ∀ core other, core.Twin same other → (change core).Twin same (change other)) :
    (work.mapCore change).Twin same (twin.mapCore change) :=
  ⟨hchange _ _ h.core, h.body⟩

/-- What does not look at ids gives the same for both. -/
theorem congr (h : work.Twin same twin) {α : Type} (f : Work → α)
    (hid : ∀ (core : Core) (body : Body Work) (id : Uuid),
      f ⟨{ core with id }, body⟩ = f ⟨core, body⟩) : f twin = f work := by
  obtain ⟨core, body⟩ := work
  obtain ⟨twinCore, twinBody⟩ := twin
  obtain ⟨⟨id, -, hcore⟩, hbody⟩ := h
  obtain rfl : twinCore = { core with id } := hcore
  obtain rfl : twinBody = body := hbody
  exact hid core twinBody id

theorem map (h : work.Twin same twin) (change : Work → Work)
    (hid : ∀ work, (change work).core.id = work.core.id)
    (hchange : ∀ (core : Core) (body : Body Work) (id : Uuid), change ⟨{ core with id }, body⟩ =
      ⟨{ (change ⟨core, body⟩).core with id }, (change ⟨core, body⟩).body⟩) :
    (change work).Twin same (change twin) := by
  obtain ⟨core, body⟩ := work
  obtain ⟨twinCore, twinBody⟩ := twin
  obtain ⟨⟨id, hsame, hcore⟩, hbody⟩ := h
  obtain rfl : twinCore = { core with id } := hcore
  obtain rfl : twinBody = body := hbody
  rw [hchange core twinBody id]
  exact ⟨⟨id, (hid _).symm ▸ hsame, rfl⟩, rfl⟩

theorem strip (h : work.Twin same twin) : work.strip.Twin same twin.strip :=
  h.map Work.strip (fun work => by rw [Work.strip_core]; rfl) fun core body id => by
    simp only [Work.strip, Work.mapUnits]
    rfl

theorem correct (h : work.Twin same twin) (queueName : String) :
    (work.correct queueName).Twin same (twin.correct queueName) :=
  h.map (·.correct queueName) (fun work => by unfold Work.correct; split <;> rfl)
    fun core body id => by
      have hkeeps : Work.keepsSignature ⟨{ core with id }, body⟩ =
        Work.keepsSignature ⟨core, body⟩ := rfl
      dsimp only
      unfold Work.correct
      rw [hkeeps]
      split <;> rfl

end Work.Twin

namespace AnswerTwin
variable {ε : Type} {same weaker : Uuid → Uuid → Prop} {answer other : Except ε (Option Work)}

theorem mono (h : AnswerTwin same answer other)
    (hw : ∀ {id last}, same id last → weaker id last) : AnswerTwin weaker answer other := by
  cases h with
  | ok hresult =>
    cases hresult with
    | none => exact .ok .none
    | some htwin => exact .ok (.some (htwin.mono hw))
  | error e => exact .error e

end AnswerTwin

/-- Sent along with the answer is the unit as it was sent. -/
structure SentTwin {ε : Type} (r : Uuid → Uuid → Prop)
    (left right : Work × Except ε (Option Work)) : Prop where
  sent : left.1.Twin r right.1
  answer : AnswerTwin r left.2 right.2

namespace Exclusion.Alike
variable {like : Likeness σ τ} {r : Uuid → Uuid → Prop} {exclusion : Exclusion σ}
  {other : Exclusion τ} (h : Exclusion.Alike like exclusion other)
include h

theorem abortQuietly (txn : Transaction) :
    Run.Alike like Eq (exclusion.abortQuietly txn) (other.abortQuietly txn) := by
  unfold Exclusion.abortQuietly
  refine (h.abort txn).bind fun answer last heq => ?_
  subst heq
  cases answer with
  | ok => exact .pure rfl
  | error e => exact .note _

theorem isGranted (key : String) (txn : Transaction) {owner last : Uuid}
    (hsame : like.same owner last) : Run.Alike like Eq (exclusion.isGranted key owner txn)
      (other.isGranted key last txn) := by
  unfold Exclusion.isGranted
  refine (h.acquire key txn hsame).bind fun answer last heq => ?_
  subst heq
  cases answer with
  | ok => exact .pure rfl
  | error e => exact (Run.Alike.note _).after (.pure rfl)

theorem close (key : String) (txn : Transaction) {result last : Option Work}
    (hresult : Option.Rel (Work.Twin r) result last) : Run.Alike like (Option.Rel (Work.Twin r))
      (exclusion.close key txn result) (other.close key txn last) := by
  unfold Exclusion.close
  refine (h.commit txn).bind fun answer lastAnswer heq => ?_
  subst heq
  cases answer with
  | ok => exact .pure hresult
  | error e =>
    refine (Run.Alike.note _).after ((h.abortQuietly txn).after (.pure ?_))
    cases hresult with
    | none => exact .none
    | some htwin =>
      exact .some (htwin.mapCore _ fun core other h => h.map (·.report _) rfl fun _ => rfl)

/-- The bracket around the call of an exclusive provider. -/
theorem call (hr : like.Grade r) {c : Collaborators σ} {d : Collaborators τ} {work twin : Work}
    (htwin : work.Twin r twin) (provider : Provider) (txn : Option Transaction)
    (args : List Argument)
    (hcall : ∀ work twin, work.Twin r twin → Run.Alike like (AnswerTwin r)
      (c.call provider work txn args) (d.call provider twin txn args)) :
    Run.Alike like (SentTwin r) (exclusion.call c provider work txn args)
      (other.call d provider twin txn args) := by
  have hkey : key twin provider = key work provider :=
    htwin.congr (key · provider) fun _ _ _ => rfl
  obtain ⟨hid, hsame, hcore⟩ := htwin.core
  unfold Exclusion.call
  dsimp only
  rw [hkey]
  refine h.create.bind fun answer last heq => ?_
  subst heq
  cases answer with
  | error e => exact .pure ⟨htwin, .error _⟩
  | ok bracket =>
    dsimp only
    have howner : like.same work.core.id twin.core.id := by
      rw [hcore]
      exact hr.same hsame
    refine (h.isGranted (key work provider) bracket howner).bind fun granted last heq => ?_
    subst heq
    split
    · have hheld := htwin.mapCore (·.mapControl ({ · with lockHolder := some provider.id }))
        fun core other h => h.mapControl _
      refine (hcall _ _ hheld).bind fun answer last hanswer => ?_
      cases hanswer with
      | ok hresult =>
        exact (h.close _ bracket hresult).bind fun _ _ hended => .pure ⟨hheld, .ok hended⟩
      | error e => exact (h.abortQuietly bracket).after (.pure ⟨hheld, .error _⟩)
    · exact (h.abortQuietly bracket).after (.pure ⟨htwin, .error _⟩)

end Exclusion.Alike
structure Work.TwinWith {ε : Type} (r : Uuid → Uuid → Prop) (left right : Work × ε) : Prop where
  work : left.1.Twin r right.1
  rest : left.2 = right.2

namespace Shell
variable {like : Likeness σ τ} {shell : Shell σ} {other : Shell τ} {r : Uuid → Uuid → Prop}
  {work twin : Work}

theorem correctedSignature_twin (h : like.Peers shell other) (htwin : work.Twin r twin) :
    twin.correctedSignature other.config.queueName =
      work.correctedSignature shell.config.queueName := by
  rw [h.queue]
  exact htwin.congr (Work.correctedSignature · shell.config.queueName) fun _ _ _ => rfl

theorem sentSignature_twin (h : like.Peers shell other) (htwin : work.Twin r twin) (call : Call) :
    other.sentSignature call twin = shell.sentSignature call work := by
  rw [sentSignature, sentSignature, correctedSignature_twin h htwin]

theorem sentUnit_twin (h : like.Peers shell other) (htwin : work.Twin r twin) (call : Call) :
    (shell.sentUnit call work).Twin r (other.sentUnit call twin) := by
  have haccess : (twin.correct other.config.queueName).core.control.access =
      (work.correct shell.config.queueName).core.control.access := by
    rw [h.queue, Work.correct_access, Work.correct_access]
    exact htwin.congr (fun unit => if unit.keepsSignature then unit.core.control.access
      else unit.effectiveAccess) fun _ _ _ => rfl
  have hfidelities : twin.core.fidelities = work.core.fidelities :=
    htwin.congr (·.core.fidelities) fun _ _ _ => rfl
  unfold sentUnit
  rw [haccess, hfidelities, sentSignature_twin h htwin]
  exact htwin.mapCore _ fun core last h => h.mapControl _

theorem correctSignature_alike (h : like.Peers shell other) (htwin : work.Twin r twin) :
    Run.Alike like (fun left right =>
        left = (work.correctedSignature shell.config.queueName,
          work.correct shell.config.queueName) ∧
        right = (twin.correctedSignature other.config.queueName,
          twin.correct other.config.queueName))
      (shell.correctSignature work) (other.correctSignature twin) := by
  have hrequested : twin.requestedSignature = work.requestedSignature :=
    htwin.congr Work.requestedSignature fun _ _ _ => rfl
  unfold correctSignature
  dsimp only
  rw [hrequested, correctedSignature_twin h htwin]
  split
  · exact (Run.Alike.noteAll _).after (.pure ⟨rfl, rfl⟩)
  · exact Run.Alike.pure ⟨rfl, rfl⟩

theorem accept_alike (htwin : work.Twin r twin) (logged : Nat) :
    Run.Alike like (Work.Twin r) (accept (σ := σ) work logged) (accept (σ := τ) twin logged) := by
  have hlog : twin.core.exceptions = work.core.exceptions :=
    htwin.congr (·.core.exceptions) fun _ _ _ => rfl
  unfold accept
  rw [htwin.name_eq, hlog]
  refine (Run.Alike.noteAll _).after ?_
  split
  · exact .pure htwin
  · exact .pure (htwin.mapCore _ fun core last h => h.setStatus _)

theorem takeAnswer_alike (provider : Provider) (signature : Signature) (logged : Nat)
    {left right : Work × Except DispatchError (Option Work)} (h : SentTwin r left right) :
    Run.Alike like (Work.Twin r) (takeAnswer (σ := σ) provider signature logged left.1 left.2)
      (takeAnswer (σ := τ) provider signature logged right.1 right.2) := by
  obtain ⟨sent, answer⟩ := left
  obtain ⟨sentTwin, answerTwin⟩ := right
  obtain ⟨hsent, hanswer⟩ := h
  dsimp only at hsent hanswer ⊢
  cases hanswer with
  | ok hresult =>
    cases hresult with
    | some htwin => exact accept_alike htwin logged
    | none => exact (Run.Alike.note _).after (.pure (hsent.fail _))
  | error e => exact (Run.Alike.note _).after (.pure (hsent.fail _))

theorem call_alike (h : like.Peers shell other) (hr : like.Grade r) (htwin : work.Twin r twin)
    (provider : Provider) (txn : Option Transaction) (args : List Argument) :
    Run.Alike like (AnswerTwin r) (shell.collaborators.call provider work txn args)
      (other.collaborators.call provider twin txn args) := by
  obtain ⟨id, hid, hcore⟩ := htwin.core
  have hids : r work.core.id twin.core.id := by
    rw [hcore]
    exact hid
  exact (h.call provider txn args (htwin.mono hr.same)).mono fun answer last hanswer =>
    hanswer.mono fun hkept => hr.keeps hids hkept.1 hkept.2

theorem answer?_alike (h : like.Peers shell other) (hr : like.Grade r) (htwin : work.Twin r twin)
    (call : Call) (provider : Provider) : Run.Alike like (Option.Rel (SentTwin r))
      (shell.answer? call provider work) (other.answer? call provider twin) := by
  have hexclusion := h.exclusion
  unfold answer?
  cases hexclusive : provider.exclusive with
  | false =>
    refine (call_alike h hr htwin provider call.txn call.args).bind fun answer last hanswer => ?_
    cases hanswer with
    | ok hresult => exact .pure (.some ⟨htwin, .ok hresult⟩)
    | error e => exact .pure (.some ⟨htwin, .error _⟩)
  | true =>
    cases hone : shell.collaborators.exclusion <;> cases htwo : other.collaborators.exclusion <;>
      rw [hone, htwo] at hexclusion <;> cases hexclusion
    · exact .pure .none
    · rename_i hexclusion
      exact (hexclusion.call hr htwin provider call.txn call.args fun work twin htwin =>
        call_alike h hr htwin provider call.txn call.args).map fun _ _ => .some

theorem callProvider_alike (h : like.Peers shell other) (hr : like.Grade r)
    (htwin : work.Twin r twin) (call : Call) (provider : Provider) (signature : Signature) :
    Run.Alike like (Work.TwinWith r) (shell.callProvider call provider work signature)
      (other.callProvider call provider twin signature) := by
  have hsent := htwin.strip.mapCore (·.mapControl (·.noteService signature))
    fun core last h => h.mapControl _
  have hlogged : (twin.strip.mapCore (·.mapControl (·.noteService signature))).core.exceptions =
      (work.strip.mapCore (·.mapControl (·.noteService signature))).core.exceptions :=
    hsent.congr (·.core.exceptions) fun _ _ _ => rfl
  unfold callProvider
  dsimp only
  rw [hlogged]
  refine (answer?_alike h hr hsent call provider).bind fun answer last hanswer => ?_
  cases hanswer with
  | none => exact .pure ⟨hsent, rfl⟩
  | some hanswer =>
    exact (takeAnswer_alike provider signature _ hanswer).bind fun _ _ htaken => .pure ⟨htaken, rfl⟩

theorem runStandIn_alike (h : like.Shells shell other) (call : Call) {core coreTwin : Core}
    (htwin : core.Twin r coreTwin) (signature : Signature) (operation : Operation)
    (hstandIn : ∀ id, DispatchesAlike like shell other (standInUnit id core signature operation)) :
    Run.Alike like (Core.TwinWith r)
      (shell.runStandIn call core signature operation)
      (other.runStandIn call coreTwin signature operation) := by
  have hsame : coreTwin.name = core.name ∧ coreTwin.context = core.context := by
    obtain ⟨id, -, rfl⟩ := htwin
    exact ⟨rfl, rfl⟩
  rw [runStandIn_eq, runStandIn_eq]
  refine h.fresh.bind fun fresh last hfresh => ?_
  have hunit : (standInUnit fresh core signature operation).Twin like.same
      (standInUnit last coreTwin signature operation) := by
    unfold standInUnit
    rw [hsame.1, hsame.2]
    exact ⟨⟨last, hfresh, rfl⟩, rfl⟩
  rw [hsame.1]
  exact (hstandIn fresh like.grade_same call.deeper _ hunit).map fun _ _ hended =>
    handedBack_twin (served_twin htwin _) hended

theorem handOver_alike (h : like.Peers shell other) (hr : like.Grade r) (htwin : work.Twin r twin)
    (call : Call) (signature : Signature) (handle : Handle)
    (hstandIn : work.kind = .task → ∀ id core signature operation,
      DispatchesAlike like shell other (standInUnit id core signature operation)) :
    Run.Alike like (Attempt.Twin r) (shell.handOver call work signature handle)
      (other.handOver call twin signature handle) := by
  have hkind : twin.kind = work.kind := htwin.congr Work.kind fun _ _ _ => rfl
  unfold handOver
  cases handle with
  | provider provider =>
    refine (callProvider_alike h hr htwin call provider signature).bind fun left right hcalled => ?_
    obtain ⟨ended, result⟩ := left
    obtain ⟨last, lastResult⟩ := right
    obtain ⟨hended, rfl⟩ := hcalled
    exact .pure ⟨hended, rfl⟩
  | standIn operation =>
    dsimp only
    rw [hkind, htwin.name_eq, htwin.body]
    split
    · rename_i hbody
      have htask : work.kind = .task := by rw [Work.kind, hbody]
      refine (runStandIn_alike h.toShells call htwin.core signature operation fun id =>
        hstandIn htask id _ _ _).bind fun left right hended => ?_
      obtain ⟨ended, result⟩ := left
      obtain ⟨last, lastResult⟩ := right
      obtain ⟨hended, rfl⟩ := hended
      exact .pure ⟨.of_core hended _, rfl⟩
    · exact .pure ⟨htwin, rfl⟩

theorem sendsAlike (h : like.Peers shell other) (hstandIn : work.kind = .task →
      ∀ id core signature operation,
        DispatchesAlike like shell other (standInUnit id core signature operation)) :
    SendsAlike like shell other work := by
  intro r hr call twin htwin
  unfold send
  refine (correctSignature_alike h htwin).bind fun left right hcorrected => ?_
  obtain ⟨rfl, rfl⟩ := hcorrected
  dsimp only
  rw [withRequestedProvider_correct, withRequestedProvider_correct, correctedSignature_twin h htwin]
  split
  · have hcorrect := htwin.correct shell.config.queueName
    rw [h.queue]
    exact (Run.Alike.note _).after (.pure ⟨hcorrect.fail _, rfl⟩)
  · have hunit := sentUnit_twin h htwin call
    dsimp only
    rw [sentSignature_twin h htwin call]
    refine (h.resolve _).bind fun answer last heq => ?_
    subst heq
    cases answer with
    | error e => exact .pure ⟨hunit, rfl⟩
    | ok handle => exact handOver_alike h hr hunit call _ handle hstandIn

/-- A unit is executed alike, whatever it is. -/
theorem execute_alike (h : like.Peers shell other) (core : Core) (body : Body Work) :
    ExecutesAlike like shell other core body :=
  executesAlike h.toShells (fun _ _ => True) (fun _ _ _ _ _ _ => trivial)
    (fun _ _ _ _ hdeparts hinvolved => sendsAlike h fun hkind id other signature operation =>
      hinvolved _ (hdeparts.involves hkind id other signature operation)) core body trivial

/-- What a caller hands in comes to the same end. -/
theorem dispatch_alike (h : like.Peers shell other) (call : Call) (work : Work) :
    Run.Alike like Eq (shell.dispatch call work) (other.dispatch call work) := by
  have hwork : work.Twin Eq work := .refl (fun _ => rfl) work
  unfold dispatch
  refine (supervise_alike h.toShells h.grade_eq call hwork ?_).bind fun ended last hended => ?_
  · cases prepare call.args work with
    | error e => exact .pure ⟨hwork, rfl⟩
    | ok ready =>
      exact ExecutesAlike.executeReady (fun context => execute_alike h _ ready.body) h.grade_eq call
        (.refl (fun _ => rfl) ready)
  · obtain ⟨ended, result⟩ := ended
    obtain ⟨last, lastResult⟩ := last
    obtain ⟨hended, rfl⟩ := hended
    obtain rfl : last = ended := hended.eq
    exact (Run.Alike.emit .flushed).after (.pure rfl)

end Shell
end ServiceShell
