import ServiceShell.Proofs.Run
import ServiceShell.Dispatch.Tree
/-!
Properties of computations that pass from the parts of a sequence to the whole. A flow has such a
property if its steps have it, and a composite if the dispatches of its children have it.
-/
namespace ServiceShell

/-- Items were taken one after the other up to the first that stops, which may have left others. -/
def UpToFirst {α β : Type} (stops : α → Prop) (taken : List α) (left : List β) : Prop :=
  ((∀ item ∈ taken, ¬ stops item) ∧ left = []) ∨
    ∃ earlier last, taken = earlier ++ [last] ∧ (∀ item ∈ earlier, ¬ stops item) ∧ stops last

namespace UpToFirst
variable {α β : Type} {stops : α → Prop} {item : α} {taken : List α} {left : List β}

theorem nil : UpToFirst stops ([] : List α) ([] : List β) :=
  .inl ⟨by simp, rfl⟩

theorem stopped (hstops : stops item) (left : List β) : UpToFirst stops [item] left :=
  .inr ⟨[], item, rfl, by simp, hstops⟩

theorem passed (hgoes : ¬ stops item) (h : UpToFirst stops taken left) :
    UpToFirst stops (item :: taken) left := by
  obtain ⟨hnone, hleft⟩ | ⟨earlier, last, rfl, hnone, hlast⟩ := h
  · exact .inl ⟨List.forall_mem_cons.mpr ⟨hgoes, hnone⟩, hleft⟩
  · exact .inr ⟨item :: earlier, last, rfl, List.forall_mem_cons.mpr ⟨hgoes, hnone⟩, hlast⟩

/-- No other item than the last one stops. -/
theorem filter_eq {stops : α → Bool} (h : UpToFirst (fun item => stops item = true) taken left)
    (hitem : item ∈ taken) (hstops : stops item) : taken.filter stops = [item] := by
  obtain ⟨hnone, -⟩ | ⟨earlier, last, rfl, hnone, hlast⟩ := h
  · exact absurd hstops (hnone item hitem)
  · have hearlier : earlier.filter stops = [] := List.filter_eq_nil_iff.mpr hnone
    obtain hbefore | hlater := List.mem_append.mp hitem
    · exact absurd hstops (hnone item hbefore)
    · obtain rfl := List.mem_singleton.mp hlater
      rw [List.filter_append, hearlier, List.nil_append]
      exact List.filter_cons_of_pos hlast

end UpToFirst

/-- A property that the parts of a sequence pass on to the whole, and that the notes have, except
for that of a refused dispatch. -/
structure Run.Composes {σ : Type} (Q : ∀ α : Type, Run σ α → Prop) : Prop where
  pure {α : Type} (value : α) : Q α (Pure.pure value)
  note (n : Note) : (∀ error, n ≠ .refused error) → Q Unit (Run.note n)
  bind {α β : Type} {x : Run σ α} {f : α → Run σ β} :
    Q α x → (∀ value, Q β (f value)) → Q β (x >>= f)

def Shell.Runner.Always {σ : Type} (P : Run σ Dispatched → Prop) (runner : Runner σ) : Prop :=
  ∀ scope, P (runner.dispatch (runner.child.core.mapContext (·.withScope scope)))

namespace Run.Composes
open Shell
variable {σ : Type} {Q : ∀ α : Type, Run σ α → Prop} (h : Run.Composes Q)
include h

section Flow
variable {step : Core → Signature → Run σ (Core × StepResult)} {signatures : List Signature}

theorem runUntilFailure (hstep : ∀ core, ∀ signature ∈ signatures, Q _ (step core signature))
    (core : Core) : Q _ (runUntilFailure step core signatures) := by
  induction signatures generalizing core with
  | nil => exact h.pure _
  | cons signature rest ih =>
    unfold Shell.runUntilFailure
    refine h.bind (hstep core signature List.mem_cons_self) fun ended => ?_
    obtain ⟨core, _ | faults⟩ := ended
    · exact ih (fun core other hother => hstep core other (List.mem_cons_of_mem _ hother)) core
    · exact h.pure _

theorem runUntilSuccess (hstep : ∀ core, ∀ signature ∈ signatures, Q _ (step core signature))
    (core : Core) (faults : List Fault) : Q _ (runUntilSuccess step core faults signatures) := by
  induction signatures generalizing core faults with
  | nil => exact h.pure _
  | cons signature rest ih =>
    unfold Shell.runUntilSuccess
    refine h.bind (hstep core signature List.mem_cons_self) fun ended => ?_
    obtain ⟨core, _ | more⟩ := ended
    · exact h.pure _
    · exact ih (fun core other hother => hstep core other (List.mem_cons_of_mem _ hother)) core _

theorem runFlow {core : Core}
    (hstep : ∀ other, ∀ signature ∈ core.fidelities.selects, Q _ (step other signature)) :
    Q _ (runFlow step core) := by
  have hrole (role : Role) (other : Core) (signature : Signature)
      (hmem : signature ∈ core.fidelities.selects.filter fun signature => signature.role = role) :
      Q _ (step other signature) := hstep other signature (List.mem_filter.mp hmem).1
  unfold Shell.runFlow
  refine h.bind (h.runUntilFailure (hrole .prepare) core) fun prepared => ?_
  obtain ⟨first, _ | faults⟩ := prepared
  · refine h.bind (h.runUntilSuccess (hrole .process) first []) fun processed => ?_
    obtain ⟨second, _ | faults⟩ := processed
    · refine h.bind (h.runUntilFailure (hrole .postprocess) second) fun postprocessed => ?_
      obtain ⟨last, _ | faults⟩ := postprocessed <;> exact h.pure _
    · exact h.pure _
  · exact h.pure _

end Flow

section Children
variable {runners : List (Runner σ)}

theorem runIn {runner : Runner σ} (hrunner : runner.Always (Q _)) (kind : Kind)
    (parent : String) (context : Context) : Q _ (runner.runIn kind parent context) := by
  unfold Runner.runIn
  refine h.bind (hrunner context) fun ended => ?_
  cases ended.result with
  | ok => exact h.pure _
  | error e => exact h.bind (h.note _ (by simp)) fun _ => h.pure _

theorem runJobChildren (hrunners : ∀ runner ∈ runners, runner.Always (Q _)) (job : String)
    (resuming : Bool) (context : Context) : Q _ (runJobChildren job resuming context runners) := by
  induction runners generalizing context with
  | nil => exact h.pure _
  | cons runner rest ih =>
    obtain ⟨hrunner, hrest⟩ := List.forall_mem_cons.mp hrunners
    unfold Shell.runJobChildren
    split
    · exact h.bind (ih hrest context) fun _ => h.pure _
    · exact h.bind (h.runIn hrunner .job job context) fun child =>
        h.bind (ih hrest _) fun _ => h.pure _

theorem runBlockChildren (hrunners : ∀ runner ∈ runners, runner.Always (Q _)) (block : String)
    (resuming : Bool) (context : Context) :
    Q _ (runBlockChildren block resuming context runners) := by
  induction runners generalizing context with
  | nil => exact h.pure _
  | cons runner rest ih =>
    obtain ⟨hrunner, hrest⟩ := List.forall_mem_cons.mp hrunners
    unfold Shell.runBlockChildren
    split
    · exact h.bind (ih hrest context) fun _ => h.pure _
    · refine h.bind (h.runIn hrunner .block block context) fun child => ?_
      dsimp only
      split
      · exact h.bind (h.note _ (by simp)) fun _ => h.pure _
      · exact h.bind (ih hrest _) fun _ => h.pure _

theorem runJob (hrunners : ∀ runner ∈ runners, runner.Always (Q _)) (core : Core)
    (resuming : Bool) : Q _ (runJob core resuming runners) := by
  unfold Shell.runJob
  refine h.bind (h.runJobChildren hrunners core.name resuming core.context) fun run => ?_
  dsimp only
  split
  · exact h.pure _
  · exact h.bind (h.note _ (by simp)) fun _ => h.pure _

theorem runBlock (hrunners : ∀ runner ∈ runners, runner.Always (Q _)) (core : Core)
    (resuming : Bool) : Q _ (runBlock core resuming runners) := by
  unfold Shell.runBlock
  refine h.bind (h.runBlockChildren hrunners core.name resuming core.context) fun run => ?_
  dsimp only
  split <;> exact h.pure _

end Children
end Run.Composes

namespace Shell
variable {σ : Type} {step : Core → Signature → Run σ (Core × StepResult)} {P : Core → Prop}

theorem runUntilFailure_keeps
    (hstep : ∀ core signature, P core → (step core signature).Ensures fun ended _ => P ended.1)
    (signatures : List Signature) {core : Core} (h : P core) :
    (runUntilFailure step core signatures).Ensures fun ended _ => P ended.1 := by
  induction signatures generalizing core with
  | nil => exact .pure h
  | cons signature rest ih =>
    refine .bind ((hstep core signature h).mono fun ended _ hended => ?_)
    obtain ⟨core, _ | faults⟩ := ended
    · exact ih hended
    · exact .pure hended

theorem runUntilSuccess_keeps
    (hstep : ∀ core signature, P core → (step core signature).Ensures fun ended _ => P ended.1)
    (signatures : List Signature) {core : Core} (h : P core) (faults : List Fault) :
    (runUntilSuccess step core faults signatures).Ensures fun ended _ => P ended.1 := by
  induction signatures generalizing core faults with
  | nil => exact .pure h
  | cons signature rest ih =>
    refine .bind ((hstep core signature h).mono fun ended _ hended => ?_)
    obtain ⟨core, _ | more⟩ := ended
    · exact .pure hended
    · exact ih hended _

/-- What holds of a task throughout its steps, and if a flow fails it, holds of the task when the
flow is over. -/
theorem runFlow_keeps
    (hstep : ∀ core signature, P core → (step core signature).Ensures fun ended _ => P ended.1)
    (hfail : ∀ core faults summary, P core → P (failWith core faults summary)) {core : Core}
    (h : P core) :
    (runFlow step core).Ensures fun core _ => P core := by
  unfold runFlow
  refine .bind ((runUntilFailure_keeps hstep _ h).mono fun prepared _ hprepared => ?_)
  obtain ⟨core, _ | faults⟩ := prepared
  · refine .bind ((runUntilSuccess_keeps hstep _ hprepared []).mono fun ran _ hran => ?_)
    obtain ⟨core, _ | faults⟩ := ran
    · refine .bind ((runUntilFailure_keeps hstep _ hran).mono fun ended _ hended => ?_)
      obtain ⟨core, _ | faults⟩ := ended
      · exact .pure hended
      · exact .pure (hfail core faults _ hended)
    · exact .pure (hfail core faults _ hran)
  · exact .pure (hfail core faults _ hprepared)

end Shell
end ServiceShell
