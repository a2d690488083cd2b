import ServiceShell.Proofs.JobOrder
import ServiceShell.Proofs.Status
import ServiceShell.Proofs.Travel
/-!
What is given back where a provider is called and nothing comes of it. The unit has its context and
its children, but it has been stripped before the call, so it is whole only if all of it can travel.
-/
namespace ServiceShell

namespace Work

structure Matches (work other : Work) : Prop where
  context : other.core.context = work.core.context
  fidelities : other.core.fidelities = work.core.fidelities
  body : other.body = work.body

namespace Matches
variable {work other last : Work}

theorem refl (work : Work) : work.Matches work := ⟨rfl, rfl, rfl⟩

theorem trans (h : work.Matches other) (hlast : other.Matches last) : work.Matches last :=
  ⟨hlast.context.trans h.context, hlast.fidelities.trans h.fidelities, hlast.body.trans h.body⟩

theorem symm (h : work.Matches other) : other.Matches work :=
  ⟨h.context.symm, h.fidelities.symm, h.body.symm⟩

theorem fail (h : work.Matches other) (fault : Fault) :
    work.Matches (other.mapCore (·.fail fault)) :=
  ⟨h.context, h.fidelities, h.body⟩

end Matches

theorem strip_eq_self_iff {work : Work} :
    work.strip = work ↔ ∀ signature ∈ work.signatures, signature.isTransportable := by
  constructor
  · intro h signature hsignature
    rw [← h, signatures_strip] at hsignature
    exact (List.mem_filter.mp hsignature).2
  · induction work using Work.induction with
    | step work ih =>
      intro h
      have hcore : work.strip.core = work.core := by
        have hown : work.core.fidelities.strip = work.core.fidelities := by
          refine Fidelities.strip_eq_self_iff.mpr fun signature hsignature => h signature ?_
          rw [signatures_eq]
          exact List.mem_append_right _ hsignature
        rw [strip_core]
        exact congrArg (fun fidelities => work.core.mapControl ({ · with fidelities })) hown
      have hchildren : mapChildren (fun unit => unit.core.mapControl (·.mapFidelities .strip))
          work.children = work.children := by
        rw [mapChildren_eq_map]
        refine (List.map_congr_left fun child hchild => ih child hchild ?_).trans (List.map_id _)
        intro signature hsignature
        refine h signature ?_
        rw [signatures_eq]
        exact List.mem_append_left _ (List.mem_flatMap.mpr ⟨child, hchild, hsignature⟩)
      obtain ⟨core, body⟩ := work
      have hbody : (strip ⟨core, body⟩).body = body := by
        cases body with
        | job dependencies children => exact congrArg (Body.job dependencies) hchildren
        | block declared children => exact congrArg (Body.block declared) hchildren
        | task model errands => rfl
        | model procedures => rfl
      exact congr (congrArg Work.mk hcore) hbody

/-- A stripped unit is the whole unit only if there was nothing to strip. -/
theorem matches_strip_iff {work : Work} :
    work.Matches work.strip ↔ ∀ signature ∈ work.signatures, signature.isTransportable := by
  rw [← strip_eq_self_iff]
  constructor
  · intro h
    obtain ⟨core, body⟩ := work
    have hcore : (strip ⟨core, body⟩).core = core := by
      have hown : core.fidelities.strip = core.fidelities := by
        have hfidelities := h.fidelities
        rw [strip_core] at hfidelities
        exact hfidelities
      rw [strip_core]
      exact congrArg (fun fidelities => core.mapControl ({ · with fidelities })) hown
    exact congr (congrArg Work.mk hcore) h.body
  · intro h
    rw [h]
    exact .refl work

def arranged (work : Work) : Work :=
  match work.body with
  | .job dependencies children =>
    match Job.order children dependencies with
    | .ok order => ⟨work.core, .job dependencies (Job.arrange children order)⟩
    | .error _ => work
  | _ => work

def addressed (work : Work) (call : Call) (queueName : String) : Work :=
  work.mapCore (·.setProcessSignature
    (Shell.requestedSignature call (work.correctedSignature queueName)))

@[simp] theorem arranged_core (work : Work) : work.arranged.core = work.core := by
  unfold arranged
  split
  · split <;> rfl
  · rfl

theorem arranged_children_perm (work : Work) : work.arranged.children.Perm work.children := by
  obtain ⟨core, body⟩ := work
  unfold arranged
  cases body with
  | job dependencies children =>
    dsimp only
    cases horder : Job.order children dependencies with
    | error e => exact .refl _
    | ok order => exact (Job.order_ok horder).perm
  | _ => exact .refl _

theorem mem_signatures_arranged {core running : Core} (h : running.fidelities = core.fidelities)
    (body : Body Work) {signature : Signature} :
    signature ∈ (arranged ⟨running, body⟩).signatures ↔ signature ∈ signatures ⟨core, body⟩ := by
  have hchildren (child : Work) : child ∈ (arranged ⟨running, body⟩).children ↔
      child ∈ children ⟨core, body⟩ :=
    (arranged_children_perm ⟨running, body⟩).mem_iff
  rw [signatures_eq, signatures_eq ⟨core, body⟩]
  simp only [List.mem_append, List.mem_flatMap, hchildren, arranged_core, h]

theorem Travels.addressed_transportable_iff {work : Work} (h : work.Travels) (call : Call)
    (queueName : String) :
    (∀ signature ∈ (work.addressed call queueName).signatures, signature.isTransportable) ↔
      ∀ signature ∈ work.signatures, signature.isTransportable := by
  have hgoes : (Shell.requestedSignature call
      (work.correctedSignature queueName)).isTransportable := by
    rw [Signature.isTransportable, h.target call queueName]
    rfl
  have hchildren : (work.addressed call queueName).children = work.children := rfl
  rw [signatures_eq, signatures_eq work, hchildren, List.forall_mem_append, List.forall_mem_append]
  refine and_congr_right fun _ => ⟨fun hall signature hsignature => ?_,
    fun hall signature hsignature => ?_⟩
  · obtain hkept | hprocess := Fidelities.mem_signatures_setProcessSignature _ hsignature
    · exact hall signature hkept
    · rw [Signature.isTransportable, h signature hprocess]
      rfl
  · obtain rfl | hold := Fidelities.mem_of_mem_setProcessSignature hsignature
    · exact hgoes
    · exact hall signature hold

/-- The unit was called for and not answered: it comes back as it was sent. -/
structure Bounced (work : Work) (call : Call) (queueName : String) (returned : Work) : Prop where
  travels : work.Travels
  returned : (work.addressed call queueName).strip.Matches returned

end Work

/-- The unit that was sent is the one that the provider was asked with. -/
theorem Asked.matches {σ : Type} {c : Collaborators σ} {call : Call} {provider : Provider}
    {work sent : Work} {answer : Except DispatchError (Option Work)} {events : List Event}
    (h : Asked c call provider work sent answer events) : work.Matches sent := by
  cases h <;> exact ⟨rfl, rfl, rfl⟩

/-- Where nothing was answered, no unit is taken over. -/
theorem Asked.unanswered {σ : Type} {c : Collaborators σ} {call : Call} {provider : Provider}
    {work sent : Work} {answer : Except DispatchError (Option Work)} {events : List Event}
    (h : Asked c call provider work sent answer events) (hnone : answers events = [])
    (result : Work) : answer ≠ .ok (some result) := by
  rintro rfl
  cases h.reply with
  | unit _ _ hanswers =>
    rw [hnone] at hanswers
    cases hanswers

namespace Shell
variable {σ : Type} (shell : Shell σ)

theorem takeAnswer_matches (provider : Provider) (signature : Signature) (logged : Nat)
    {work sent : Work} {answer : Except DispatchError (Option Work)} (h : work.Matches sent)
    (hnone : ∀ result, answer ≠ .ok (some result)) :
    (takeAnswer (σ := σ) provider signature logged sent answer).Ensures fun returned _ =>
      work.Matches returned := by
  unfold takeAnswer
  split
  · exact absurd rfl (hnone _)
  · exact .bind (.note (.pure (h.fail _)))
  · exact .bind (.note (.pure (h.fail _)))

def GivesBack (call : Call) (work : Work) (attempt : Attempt) (events : List Event) : Prop :=
  attempt.result = .ok .remote → answers events = [] →
    work.Bounced call shell.config.queueName attempt.work

variable {shell} in
/-- Without an answer the unit comes back as it was sent. -/
theorem Sent.givesBack {call : Call} {work : Work} {attempt : Attempt} {events : List Event}
    (h : Sent shell call work attempt events) (htravels : work.Travels) :
    shell.GivesBack call work attempt events := by
  intro hremote hnone
  cases h with
  | unselectable => cases hremote
  | served hcorrected hresolved hserved =>
    simp only [answers_append, List.append_eq_nil_iff] at hnone
    cases hserved with
    | unresolved => cases hremote
    | unlockable => cases hremote
    | unfit => cases hremote
    | stoodIn => cases givenOver_ok hremote
    | @called provider sent taken answer asked noted hasked htaken =>
      rw [answers_append, List.append_eq_nil_iff] at hnone
      have htaken := (takeAnswer_matches provider _ _ hasked.matches
        (hasked.unanswered hnone.2.2.1)).of_yields htaken
      have hsent : (work.addressed call shell.config.queueName).strip.Matches
          ((shell.sentUnit call work).outgoing (shell.sentSignature call work)) := ⟨rfl, rfl, rfl⟩
      exact ⟨htravels, hsent.trans htaken⟩

theorem Departs.arranged {core : Core} {body sent : Body Work} (h : Departs core body sent) :
    Work.arranged ⟨core, body⟩ = ⟨core, sent⟩ := by
  unfold Work.arranged
  cases h with
  | job horder => simp only [horder]
  | _ => rfl

theorem execute_givesBack (call : Call) (core : Core) (resuming : Bool) (body : Body Work) :
    (shell.execute call core resuming body).Ensures
      (shell.GivesBack call (Work.arranged ⟨core, body⟩)) := by
  have hway := shell.execute_way call core resuming body
  generalize shell.execute call core resuming body = x at hway ⊢
  cases hway with
  | own hown =>
    refine .bind (.of_forall fun _ _ => .pure fun hremote => ?_)
    obtain rfl | rfl := hown.route_eq <;> cases hremote
  | sent hdeparts =>
    rw [hdeparts.arranged]
    exact (shell.send_sent call _).mono fun _ _ hsent => hsent.givesBack hdeparts.travels
  | errand => exact .map (.of_forall fun _ _ hremote => by cases givenOver_ok hremote)
  | _ => exact .bind (.of_forall fun _ _ => .pure fun hremote => by cases hremote)

theorem executeReady_givesBack (call : Call) (core : Core) (body : Body Work) :
    (shell.executeReady call ⟨core, body⟩).Ensures fun attempt events =>
      attempt.result = .ok .remote → answers events = [] → ∃ running returned,
        Starts call core running ∧ attempt.work = Work.mapCore returned Core.finish ∧
          (Work.arranged ⟨running, body⟩).Bounced call shell.config.queueName returned := by
  refine proceed_ensures (fun _ _ _ _ _ hremote => by cases hremote) fun running hstarts => ?_
  refine (shell.execute_givesBack call running _ body).mono
    fun attempt later hback earlier _ _ hremote hnone => ?_
  obtain ⟨returned, result⟩ := attempt
  cases result with
  | error e => cases hremote
  | ok route =>
    rw [answers_append, List.append_eq_nil_iff] at hnone
    exact ⟨running, returned, hstarts, rfl, hback hremote hnone.2⟩

/-- A unit whose provider was called and gave no answer, be it that it returned nothing, that the
call failed or that the lock was denied: it comes back with the context that it had right before the
call, and with its fidelities and children as they were then but for the signatures that are carried
out in this process. So it is given back intact, apart from the signature it went by, if and only if
no unit of the tree owned such a signature. -/
theorem Dispatches.returned_intact_iff {shell : Shell σ} {call : Call} {work ready : Work}
    {run : Run σ Dispatched} (h : shell.Dispatches call work (.ok ready) run)
    (hdepth : call.depth ≤ shell.config.maxDelegationDepth) (world : World σ)
    (hremote : (shell.executeReady call ready world).value.result = .ok .remote)
    (hunanswered : answers (run world).events = []) :
    ∃ running, Starts call ready.core running ∧
      let sent := (Work.arranged ⟨running, ready.body⟩).addressed call shell.config.queueName
      let returned := (run world).value.work
      sent.strip.Matches returned ∧
        (sent.Matches returned ↔ ∀ signature ∈ ready.signatures, signature.isTransportable) := by
  obtain ⟨core, body⟩ := ready
  obtain ⟨before, after, hevents, -, -⟩ := h.events_unanswered hdepth world
  have hnone : answers (shell.executeReady call ⟨core, body⟩ world).events = [] := by
    rw [hevents] at hunanswered
    simp only [answers_append, List.append_eq_nil_iff] at hunanswered
    exact hunanswered.1.2
  obtain ⟨running, returned, hstarts, hwork, hbounced⟩ :=
    shell.executeReady_givesBack call core body world hremote hnone
  have hvalue : (run world).value.work = returned.mapCore Core.finish := by
    rw [h.value hdepth world]
    simp only [executeEntered, Attempt.ended, hremote]
    exact hwork
  have hmatches : ((Work.arranged ⟨running, body⟩).addressed call
      shell.config.queueName).strip.Matches (run world).value.work := by
    rw [hvalue]
    exact hbounced.returned.trans ⟨rfl, rfl, rfl⟩
  have hsame : running.fidelities = core.fidelities := by
    obtain ⟨context, -, rfl⟩ := hstarts
    rfl
  refine ⟨running, hstarts, hmatches, ?_⟩
  have hall := hbounced.travels.addressed_transportable_iff call shell.config.queueName
  simp only [Work.mem_signatures_arranged hsame] at hall
  rw [← hall, ← Work.matches_strip_iff]
  exact ⟨fun hintact => hintact.trans hmatches.symm, fun hintact => hintact.trans hmatches⟩

def twofold : Work :=
  let fidelities : Fidelities :=
    .ofList [⟨"net", [.net "run" "Supply"]⟩, ⟨"local", [.object "run" "Supply" idle]⟩]
  supplied.mapCore (·.mapControl ({ · with fidelities }))

def returnedBy (work : Work) : Outcome Unit Dispatched :=
  (finding (some (.provider depot))).dispatch ⟨0, none, none, []⟩ work ⟨(), .empty 20 1000⟩

/-- The other fidelity is given back without its signature. -/
theorem returned_intact_iff_twofold : ∃ running, Starts ⟨0, none, none, []⟩ twofold.core running ∧
    let sent := (Work.arranged ⟨running, twofold.body⟩).addressed ⟨0, none, none, []⟩ "Spacer"
    let returned := (returnedBy twofold).value.work
    sent.strip.Matches returned ∧
      (sent.Matches returned ↔ ∀ signature ∈ twofold.signatures, signature.isTransportable) := by
  have hdispatches : (finding (some (.provider depot))).Dispatches ⟨0, none, none, []⟩ twofold
      (.ok twofold) _ := .root ⟨0, none, none, []⟩ twofold
  exact hdispatches.returned_intact_iff (Nat.zero_le _) ⟨(), .empty 20 1000⟩ rfl rfl

/-- What a call without an answer takes from a unit: the operation of another fidelity, and that of
a child. -/
theorem operations_lost :
    (twofold.core.fidelities.alternatives[1]?.map Fidelity.selects =
        some [.object "run" "Supply" idle] ∧
      (returnedBy twofold).value.work.core.fidelities.alternatives[1]?.map Fidelity.selects =
        some []) ∧
    (wholesale.children.flatMap Work.signatures = [.object "run" "Local" idle] ∧
      (returnedBy wholesale).value.work.children.flatMap Work.signatures = []) :=
  ⟨⟨rfl, rfl⟩, rfl, rfl⟩

end Shell
end ServiceShell
