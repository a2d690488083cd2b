import ServiceShell.Proofs.Fidelity
import ServiceShell.Proofs.Preparation
/-!
Which dispatcher the process signature of a unit goes to: under pull access the queueing one, under
push access any other service. A correction puts this signature and the access that decided into the
unit, touches nothing else, and finds nothing more to do the second time.
-/
namespace ServiceShell

def Access.dispatcher : Access → String
  | pull => Signature.queueingDispatcher
  | push => Signature.directDispatcher

namespace Signature

/-- The signature is with the queueing dispatcher under pull access, and only then. -/
def Fits (signature : Signature) (access : Access) : Prop :=
  signature.type = queueingDispatcher ↔ access = .pull

/-- The provider to be asked for at the dispatcher of an access: of the queues the one that is named
already, else the given one; any of the direct ones. -/
def keeper (signature : Signature) (queueName : String) : Access → ProviderName
  | .pull => if signature.provider.isNamed then signature.provider else .named queueName
  | .push => .any

variable {signature : Signature} {access : Access}

theorem forAccess_of_fits (h : signature.Fits access) (queueName : String) :
    signature.forAccess queueName access = signature := by
  cases access with
  | pull => exact if_pos (h.mpr rfl)
  | push => exact if_neg fun htype => Access.noConfusion (h.mp htype)

theorem forAccess_of_not_fits (h : ¬ signature.Fits access) (queueName : String) :
    signature.forAccess queueName access =
      signature.retarget access.dispatcher (signature.keeper queueName access) := by
  cases access with
  | pull =>
    have htype : signature.type ≠ queueingDispatcher := fun htype => h (by simp [Fits, htype])
    refine (if_neg htype).trans ?_
    unfold keeper
    cases signature.provider <;> rfl
  | push =>
    have htype : signature.type = queueingDispatcher :=
      Decidable.byContradiction fun htype => h (by simp [Fits, htype])
    exact if_pos htype

theorem retarget_fits (signature : Signature) (provider : ProviderName) (access : Access) :
    (signature.retarget access.dispatcher provider).Fits access := by
  change access.dispatcher = queueingDispatcher ↔ access = .pull
  cases access <;> decide

variable (signature : Signature) (queueName : String) (access : Access)

theorem forAccess_fits : (signature.forAccess queueName access).Fits access := by
  by_cases h : signature.Fits access
  · rwa [forAccess_of_fits h]
  · rw [forAccess_of_not_fits h]
    exact signature.retarget_fits _ access

/-- What has gone to the dispatcher of its access stays there. -/
theorem forAccess_twice :
    (signature.forAccess queueName access).forAccess queueName access =
      signature.forAccess queueName access :=
  forAccess_of_fits (signature.forAccess_fits queueName access) queueName

theorem forAccess_access : (signature.forAccess queueName access).access = signature.access := by
  by_cases h : signature.Fits access
  · rw [forAccess_of_fits h]
  · rw [forAccess_of_not_fits h]
    rfl

theorem forAccess_target : (signature.forAccess queueName access).target = signature.target := by
  by_cases h : signature.Fits access
  · rw [forAccess_of_fits h]
  · rw [forAccess_of_not_fits h]
    rfl

theorem forAccess_role (hrole : signature.role = .process) :
    (signature.forAccess queueName access).role = .process := by
  by_cases h : signature.Fits access
  · rwa [forAccess_of_fits h]
  · rw [forAccess_of_not_fits h]
    rfl

end Signature

namespace Work

theorem requestedSignature_role (work : Work) : work.requestedSignature.role = .process := by
  unfold requestedSignature
  cases hsignature : work.core.processSignature with
  | none => rfl
  | some signature => exact Fidelities.role_of_processSignature hsignature

theorem correctedSignature_role (work : Work) (queueName : String) :
    (work.correctedSignature queueName).role = .process := by
  unfold correctedSignature
  split
  · exact work.requestedSignature_role
  · exact Signature.forAccess_role _ queueName _ work.requestedSignature_role

theorem correct_fidelities (work : Work) (queueName : String) :
    (work.correct queueName).core.fidelities =
      work.core.fidelities.setProcessSignature (work.correctedSignature queueName) := by
  unfold correct
  split
  · rename_i hkeeps
    have hsome : work.core.fidelities.processSignature = some work.requestedSignature := by
      simp only [keepsSignature, Bool.and_eq_true, requestedSignature] at hkeeps ⊢
      cases hsignature : work.core.processSignature with
      | none =>
        rw [hsignature] at hkeeps
        cases hkeeps.2
      | some signature => exact hsignature
    rw [correctedSignature, if_pos hkeeps, Fidelities.setProcessSignature_self hsome]
  · rfl

theorem correct_access (work : Work) (queueName : String) :
    (work.correct queueName).core.control.access =
      if work.keepsSignature then work.core.control.access else work.effectiveAccess := by
  unfold correct
  split <;> rfl

/-- A correction changes the access and the process signature, and nothing else. -/
theorem correct_eq (work : Work) (queueName : String) : work.correct queueName =
    work.mapCore (Core.restate (work.correct queueName).core.control.access
      (work.core.fidelities.setProcessSignature (work.correctedSignature queueName))) := by
  rw [← work.correct_fidelities queueName]
  unfold correct
  split
  · exact work.mapCore_restate_self.symm
  · rfl

theorem correct_core (work : Work) (queueName : String) : ∃ access,
    (work.correct queueName).core = work.core.restate access
      (work.core.fidelities.setProcessSignature (work.correctedSignature queueName)) :=
  ⟨_, congrArg core (work.correct_eq queueName)⟩

section Twice
variable (work : Work) (queueName : String)

theorem processSignature_correct :
    (work.correct queueName).core.processSignature = some (work.correctedSignature queueName) := by
  rw [Core.processSignature, correct_fidelities]
  exact Fidelities.processSignature_setProcessSignature _ (work.correctedSignature_role queueName)

theorem requestedSignature_correct :
    (work.correct queueName).requestedSignature = work.correctedSignature queueName := by
  rw [requestedSignature, processSignature_correct, Option.getD_some]

theorem correctedSignature_access :
    (work.correctedSignature queueName).access = work.requestedSignature.access := by
  unfold correctedSignature
  split
  · rfl
  · exact Signature.forAccess_access ..

theorem correctedSignature_target :
    (work.correctedSignature queueName).target = work.requestedSignature.target := by
  unfold correctedSignature
  split
  · rfl
  · exact Signature.forAccess_target ..

theorem kind_correct : (work.correct queueName).kind = work.kind := by
  rw [correct_eq]
  rfl

theorem keepsSignature_correct :
    (work.correct queueName).keepsSignature = work.keepsSignature := by
  rw [keepsSignature, isJob, kind_correct, requestedSignature_correct, correctedSignature_access]
  rfl

theorem effectiveAccess_correct :
    (work.correct queueName).effectiveAccess = work.effectiveAccess := by
  rw [effectiveAccess, requestedSignature_correct, correctedSignature_access, correct_access,
    effectiveAccess]
  cases haccess : work.requestedSignature.access with
  | some access => rfl
  | none =>
    rw [keepsSignature, haccess, Option.isSome_none, Bool.and_false]
    rfl

theorem correctedSignature_correct : (work.correct queueName).correctedSignature queueName =
    work.correctedSignature queueName := by
  rw [correctedSignature, keepsSignature_correct, requestedSignature_correct,
    effectiveAccess_correct, correctedSignature]
  split
  · rfl
  · exact Signature.forAccess_twice ..

theorem correct_correct : (work.correct queueName).correct queueName = work.correct queueName := by
  have hfidelities : (work.correct queueName).core.fidelities.setProcessSignature
      (work.correctedSignature queueName) = (work.correct queueName).core.fidelities :=
    Fidelities.setProcessSignature_self (work.processSignature_correct queueName)
  have haccess : ((work.correct queueName).correct queueName).core.control.access =
      (work.correct queueName).core.control.access := by
    rw [correct_access _ queueName, keepsSignature_correct, effectiveAccess_correct]
    cases hkeeps : work.keepsSignature with
    | true => rfl
    | false => rw [correct_access, hkeeps]; rfl
  rw [correct_eq (work.correct queueName), correctedSignature_correct, haccess, hfidelities]
  exact mapCore_restate_self _

end Twice

theorem keepsSignature_iff {work : Work} : work.keepsSignature = true ↔ work.kind = .job ∧
    ∃ signature, work.core.processSignature = some signature ∧ signature.access.isSome := by
  unfold keepsSignature requestedSignature isJob
  cases work.core.processSignature with
  | none => simp [Signature.net]
  | some signature => simp

/-- What a correction returns and leaves: a signature with the dispatcher of the access that
decides, retargeted only where it was not there before, and a unit that asks for this signature under
this access and is otherwise the same. -/
structure Reconciled (work : Work) (queueName : String) (returned : Signature)
    (corrected : Work) : Prop where
  fits : returned.Fits work.effectiveAccess
  kept : work.requestedSignature.Fits work.effectiveAccess → returned = work.requestedSignature
  retargeted : ¬ work.requestedSignature.Fits work.effectiveAccess →
    returned = { work.requestedSignature with
      service := ⟨work.effectiveAccess.dispatcher, Signature.dispatchSelector,
        work.requestedSignature.keeper queueName work.effectiveAccess⟩
      role := .process }
  asked : corrected.core.processSignature = some returned
  access : corrected.core.control.access = work.effectiveAccess
  rest : ∃ fidelities, work.core.fidelities.Exchanges returned fidelities ∧
    corrected = work.mapCore (Core.restate work.effectiveAccess fidelities)

/-- A correction reconciles the process signature of a unit with its access, once and for all. A job
whose process signature declares an access is left as it is. -/
theorem correct_reconciles (work : Work) (queueName : String) :
    let returned := work.correctedSignature queueName
    let corrected := work.correct queueName
    let declares := work.kind = .job ∧
      ∃ signature, work.core.processSignature = some signature ∧ signature.access.isSome
    (declares → corrected = work) ∧
      (¬ declares → work.Reconciled queueName returned corrected ∧
        corrected.correctedSignature queueName = returned ∧
        corrected.correct queueName = corrected) := by
  dsimp only
  rw [← keepsSignature_iff]
  refine ⟨fun h => if_pos h, fun h => ⟨?_, work.correctedSignature_correct queueName,
    work.correct_correct queueName⟩⟩
  have hreturned : work.correctedSignature queueName =
      work.requestedSignature.forAccess queueName work.effectiveAccess := if_neg h
  have haccess := (work.correct_access queueName).trans (if_neg h)
  constructor
  case fits => exact hreturned ▸ Signature.forAccess_fits ..
  case kept => exact fun hfits => hreturned.trans (Signature.forAccess_of_fits hfits queueName)
  case retargeted =>
    exact fun hfits => hreturned.trans (Signature.forAccess_of_not_fits hfits queueName)
  case asked => exact work.processSignature_correct queueName
  case access => exact haccess
  case rest =>
    refine ⟨_, Fidelities.setProcessSignature_exchanges _ _, ?_⟩
    rw [← haccess]
    exact work.correct_eq queueName

def pulled : Work :=
  let exact := [(Signature.net "warm" "Cache").withRole .prepare,
    (Signature.net "add" "BigAdder").withProvider (.named "abacus")]
  ⟨(Core.fresh (.ofNat 0) "sum").mapControl ({ · with
      access := .pull
      fidelities := ⟨[⟨"fast", [.net "add" "Adder"]⟩, ⟨"exact", exact⟩], some 1⟩ }),
    .task none []⟩

def insisting : Work :=
  ⟨(Core.fresh (.ofNat 0) "order").setProcessSignature
    { Signature.net "exert" "Jobber" with access := some .pull }, .job [] []⟩

theorem correct_reconciles_pulled :
    ¬ (pulled.kind = .job ∧ ∃ signature, pulled.core.processSignature = some signature ∧
        signature.access.isSome) ∧
      (pulled.correctedSignature "Spacer").service = ⟨"Spacer", "exert", .named "abacus"⟩ ∧
      (pulled.correct "Spacer").core.processSignature =
        some (pulled.correctedSignature "Spacer") ∧
      (pulled.correct "Spacer").core.fidelities.alternatives[0]?.map Fidelity.selects =
        some [.net "add" "Adder"] ∧
      (pulled.correct "Spacer").correct "Spacer" = pulled.correct "Spacer" ∧
      insisting.correct "Spacer" = insisting := by
  have htask : ¬ (pulled.kind = .job ∧ ∃ signature, pulled.core.processSignature = some signature ∧
      signature.access.isSome) := fun h => absurd h.1 (by decide)
  obtain ⟨hreconciled, -, htwice⟩ := (pulled.correct_reconciles "Spacer").2 htask
  have hunfit : ¬ pulled.requestedSignature.Fits pulled.effectiveAccess := by
    unfold Signature.Fits
    decide
  have hinsists := (insisting.correct_reconciles "Spacer").1 ⟨rfl, _, rfl, rfl⟩
  refine ⟨htask, ?_, hreconciled.asked, rfl, htwice, hinsists⟩
  rw [hreconciled.retargeted hunfit]
  rfl

end Work
end ServiceShell
