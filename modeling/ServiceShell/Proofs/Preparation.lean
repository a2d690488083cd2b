import ServiceShell.Proofs.Reset
import ServiceShell.Shell
/-!
Preparation of the unit that a caller hands in: its fidelity is chosen, and what it is prepared to
under that fidelity depends neither on the signatures nor on the access.
-/
namespace ServiceShell

def Core.restate (access : Access) (fidelities : Fidelities) (core : Core) : Core :=
  core.mapControl ({ · with access, fidelities })

@[simp] theorem Core.restate_context (access : Access) (fidelities : Fidelities) (core : Core) :
    (core.restate access fidelities).context = core.context := rfl

namespace Work

theorem mapCore_restate_self (work : Work) :
    work.mapCore (Core.restate work.core.control.access work.core.fidelities) = work := by
  cases work
  rfl

theorem reset_kind (args : List Argument) (work : Work) : (work.reset args).kind = work.kind := by
  unfold reset
  split
  · exact mapUnits_kind _ _
  · rfl

theorem reset_control (args : List Argument) (work : Work) :
    (work.reset args).core.fidelities = work.core.fidelities ∧
      (work.reset args).core.control.access = work.core.control.access := by
  unfold reset
  split
  · obtain ⟨status, exceptions, trace, hcore⟩ := resetCore_frame args work
    rw [mapUnits_core, hcore]
    exact ⟨rfl, rfl⟩
  · exact ⟨rfl, rfl⟩

theorem reset_restate (args : List Argument) (work : Work) (access : Access)
    (fidelities : Fidelities) : (work.mapCore (Core.restate access fidelities)).reset args =
      (work.reset args).mapCore (Core.restate access fidelities) := by
  obtain ⟨core, body⟩ := work
  unfold reset
  by_cases hinitial : core.control.state = .initial
  · simp only [mapCore, Core.restate, Core.mapControl, hinitial, if_true, mapUnits, resetCore]
    rfl
  · simp only [mapCore, Core.restate, Core.mapControl, hinitial, if_false]

end Work

namespace Shell
variable {args : List Argument} {work ready : Work} {chosen : Fidelities}

def readied (args : List Argument) (work : Work) (chosen : Fidelities) : Work :=
  let work := (work.mapCore (·.mapControl ({ · with fidelities := chosen }))).substitute args
  if work.core.control.initializable then work.reset args else work

theorem prepare_eq (args : List Argument) (work : Work) :
    prepare args work = (selectFidelity args work).map (readied args work) := by
  unfold prepare
  cases selectFidelity args work <;> rfl

theorem exists_readied (h : prepare args work = .ok ready) :
    ∃ chosen, selectFidelity args work = .ok chosen ∧ ready = readied args work chosen := by
  rw [prepare_eq] at h
  cases hselect : selectFidelity args work with
  | error e =>
    rw [hselect] at h
    cases h
  | ok chosen =>
    rw [hselect] at h
    exact ⟨chosen, rfl, (Except.ok.inj h).symm⟩

/-- What the choice of fidelities and a reset leave alone, a preparation leaves alone. -/
theorem readied_keeps {α : Type} (f : Work → α)
    (hreset : ∀ unit : Work, f (unit.reset args) = f unit)
    (hchosen : f ((work.mapCore (·.mapControl ({ · with fidelities := chosen }))).substitute args) =
      f work) : f (readied args work chosen) = f work := by
  unfold readied
  dsimp only
  split
  · exact (hreset _).trans hchosen
  · exact hchosen

theorem readied_fidelities (args : List Argument) (work : Work) (chosen : Fidelities) :
    (readied args work chosen).core.fidelities = chosen := by
  unfold readied
  dsimp only
  split
  · exact (Work.reset_control args _).1
  · rfl

theorem readied_access (args : List Argument) (work : Work) (chosen : Fidelities) :
    (readied args work chosen).core.control.access = work.core.control.access :=
  readied_keeps (·.core.control.access) (fun unit => (unit.reset_control args).2) rfl

theorem readied_kind (args : List Argument) (work : Work) (chosen : Fidelities) :
    (readied args work chosen).kind = work.kind :=
  readied_keeps Work.kind (Work.reset_kind args) rfl

/-- Below the unit there is what was there, or all of it has been reset. -/
theorem readied_body (args : List Argument) (work : Work) (chosen : Fidelities) :
    (readied args work chosen).body = work.body ∨
      (readied args work chosen).body = Work.mapBody (Work.resetCore args) work.body := by
  obtain ⟨core, body⟩ := work
  unfold readied Work.reset
  dsimp only
  split
  · split
    · exact .inr rfl
    · exact .inl rfl
  · exact .inl rfl

theorem readied_restate (args : List Argument) (work : Work) (chosen : Fidelities)
    (access : Access) (fidelities last : Fidelities) :
    readied args (work.mapCore (Core.restate access fidelities)) last =
      (readied args work chosen).mapCore (Core.restate access last) := by
  unfold readied
  rw [apply_ite (Work.mapCore · (Core.restate access last)), ← Work.reset_restate]
  rfl

theorem prepare_unreset (hstate : work.core.control.state ≠ .initial)
    (h : prepare args work = .ok ready) : ∃ fidelities,
      ready = (work.mapCore (·.mapControl ({ · with fidelities }))).substitute args := by
  obtain ⟨chosen, -, rfl⟩ := exists_readied h
  refine ⟨chosen, ?_⟩
  unfold readied
  dsimp only
  split
  · exact if_neg hstate
  · rfl

end Shell
end ServiceShell
