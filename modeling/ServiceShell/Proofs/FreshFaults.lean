import ServiceShell.Proofs.Status
/-!
The faults of a remote call. Those that were logged before the call are told from those of the call
by their number alone, so a provider that keeps the log it was sent has all its faults noticed, and
one that answers with a log of its own may have some passed over.
-/
namespace ServiceShell

theorem Work.accepted_finish_status (result : Work) (logged : Nat) :
    (result.accepted logged).core.finish.status =
      if result.core.exceptions.drop logged = [] then result.core.finish.status
      else if (result.core.exceptions.drop logged).any Fault.isFatal then .error else .failed := by
  unfold accepted acceptedStatus
  dsimp only
  split
  · rfl
  · split <;> rfl

/-- The log that the call of a provider leaves where it answers, and the status that it gives. -/
theorem Called.finish_status {id : Uuid} {old : List Fault} {events : List Event}
    {work sent result : Work} (h : Called id old events work)
    (hanswer : (sent, result) ∈ answers events) :
    let log := result.core.exceptions ++ commitFaults events
    let fresh := log.drop sent.core.exceptions.length
    work.core.exceptions = log ∧ work.core.finish.status =
      if fresh = [] then result.core.finish.status
      else if fresh.any Fault.isFatal then .error else .failed := by
  cases h with
  | failed hnone =>
    rw [hnone] at hanswer
    cases hanswer
  | answered hid hold honly =>
    rw [honly, List.mem_singleton] at hanswer
    obtain ⟨rfl, rfl⟩ := Prod.mk.inj hanswer
    rw [← hold]
    exact ⟨Work.accepted_exceptions _ _, Work.accepted_finish_status _ _⟩

/-- Where nothing new stands among the first faults, each new one stands behind them. -/
theorem mem_drop_of_kept {old log : List Fault}
    (hkept : ∀ fault ∈ log.take old.length, fault ∈ old) {fault : Fault} (hfault : fault ∈ log)
    (hnew : fault ∉ old) : fault ∈ log.drop old.length := by
  rw [← List.take_append_drop old.length log] at hfault
  exact (List.mem_append.mp hfault).resolve_left fun h => hnew (hkept fault h)

namespace Shell.Dispatches
variable {σ : Type} {shell : Shell σ} {call : Call} {work ready : Work} {run : Run σ Dispatched}

/-- The log of an answered unit, with the fault of a failed commit, and the status that the faults
beyond the number of those that were sent give it. All new faults are noticed where the provider has
put none of them among the first. -/
theorem new_faults_noticed (h : shell.Dispatches call work (.ok ready) run)
    (hdepth : call.depth ≤ shell.config.maxDelegationDepth) (world : World σ)
    (hremote : (shell.executeReady call ready world).value.result = .ok .remote)
    {sent result : Work} (hanswer : (sent, result) ∈ answers (run world).events) :
    let log := result.core.exceptions ++ commitFaults (run world).events
    let fresh := log.drop sent.core.exceptions.length
    let unit := (run world).value.work.core
    unit.exceptions = log ∧
      unit.status = (if fresh = [] then result.core.finish.status
        else if fresh.any Fault.isFatal then .error else .failed) ∧
      ((∀ fault ∈ log.take sent.core.exceptions.length, fault ∈ sent.core.exceptions) →
        ∀ fault ∈ log, fault ∉ sent.core.exceptions →
          unit.status.isFailure ∧ (fault.isFatal → unit.status = .error)) := by
  intro log fresh unit
  have hvalue := h.value hdepth world
  have hexecuted : (shell.executeReady call ready world).value =
      ⟨(run world).value.work, .ok .remote⟩ := by
    rw [hvalue]
    simp only [executeEntered, Attempt.ended, hremote]
    rw [← hremote]
  obtain ⟨ran, hran, hsettles⟩ := h.executed_settles hdepth hexecuted
  have hunit : unit = ran.core.finish := congrArg Work.core hran
  cases hsettles with
  | inCourse hroute => exact absurd rfl hroute
  | called hcalled =>
    obtain ⟨hlog, hstatus⟩ := hcalled.finish_status hanswer
    rw [← hunit] at hstatus
    refine ⟨?_, hstatus, fun hkept fault hfault hnew => ?_⟩
    · rw [hunit]
      exact hlog
    · have hfresh : fault ∈ fresh := mem_drop_of_kept hkept hfault hnew
      rw [if_neg (List.ne_nil_of_mem hfresh)] at hstatus
      rw [hstatus]
      refine ⟨by split <;> rfl, fun hfatal => ?_⟩
      exact if_pos (List.any_eq_true.mpr ⟨fault, hfresh, hfatal⟩)

end Shell.Dispatches

namespace Shell

def retrying : Work := supplied.mapCore (·.fail (.exception "no supply"))

def burnt (work : Work) : Work :=
  work.mapCore fun core => (core.fail (.error "depot on fire")).setStatus .done

def forgetful (work : Work) : Work := work.mapCore ({ · with exceptions := [] })

/-- The fault is noticed where the provider keeps the log that it was sent. -/
theorem new_faults_noticed_burnt :
    let ended := (answering depot burnt).dispatch ⟨0, none, none, []⟩ retrying ⟨(), .empty 20 1000⟩
    ended.value.work.core.exceptions = [.exception "no supply", .error "depot on fire"] ∧
      ended.value.work.core.status = .error := by
  have hdispatches : (answering depot burnt).Dispatches ⟨0, none, none, []⟩ retrying (.ok _) _ :=
    .root ⟨0, none, none, []⟩ retrying
  have hnoticed := hdispatches.new_faults_noticed (Nat.zero_le _) ⟨(), .empty 20 1000⟩ rfl
    (List.mem_singleton_self _)
  refine ⟨hnoticed.1, (hnoticed.2.2 ?_ (.error "depot on fire") ?_ ?_).2 rfl⟩
  · decide
  · decide
  · decide

/-- It is passed over where it stands in the place of a fault that was sent; so is a failed commit,
which is noted behind a log that is shorter than the one that was sent. -/
theorem new_faults_missed :
    (∃ sent result fault,
      let ended := (answering depot fun work => burnt (forgetful work)).dispatch
        ⟨0, none, none, []⟩ retrying ⟨(), .empty 20 1000⟩
      (sent, result) ∈ answers ended.events ∧ fault ∈ result.core.exceptions ∧
        fault ∉ sent.core.exceptions ∧ fault.isFatal ∧ ended.value.work.core.status = .done) ∧
    ∃ sent result fault,
      let ended := (answering { depot with exclusive := true } fun work =>
        (forgetful work).mapCore (·.setStatus .done)).dispatch ⟨0, none, none, []⟩ retrying
          ⟨(), .empty 20 1000⟩
      (sent, result) ∈ answers ended.events ∧ fault ∈ commitFaults ended.events ∧
        fault ∉ sent.core.exceptions ∧ ended.value.work.core.status = .done := by
  refine ⟨⟨_, _, .error "depot on fire", List.mem_singleton_self _, ?_, ?_, rfl, rfl⟩,
    ⟨_, _, _, List.mem_singleton_self _, List.mem_singleton_self _, ?_, rfl⟩⟩
  · decide
  · decide
  · decide

end Shell
end ServiceShell
