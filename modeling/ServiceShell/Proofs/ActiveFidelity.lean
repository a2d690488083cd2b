import ServiceShell.Proofs.Fidelity
import ServiceShell.Proofs.Framing
import ServiceShell.Proofs.StoredForm
import ServiceShell.Rehearsal.Edit
/-!
The active fidelity of a unit whose fidelities are revised without a selection: new ones are added,
the process signature is replaced, what cannot travel is dropped. The selection is stored as a
position and read against as many fidelities as there are by then. So it stays where it is, unless
it was loaded with a position that no fidelity had yet.
-/
namespace ServiceShell.Fidelities

inductive Revision where
  | add (fidelity : Fidelity)
  | setProcess (signature : Signature)
  | strip

def Revision.apply (fidelities : Fidelities) : Revision → Fidelities
  | add fidelity => fidelities.add fidelity
  | setProcess signature => fidelities.setProcessSignature signature
  | strip => fidelities.strip

def revise (fidelities : Fidelities) (revisions : List Revision) : Fidelities :=
  revisions.foldl Revision.apply fidelities

/-- The position that is stored as selected is none of the fidelities. -/
def Dangles (fidelities : Fidelities) : Prop :=
  ∃ position, fidelities.selected = some position ∧ fidelities.alternatives.length ≤ position

/-- Fidelities that were made by their operations, and not loaded from a text. -/
inductive Built : Fidelities → Prop where
  | ofList (alternatives : List Fidelity) : Built (ofList alternatives)
  | revised {fidelities : Fidelities} (revision : Revision) :
    Built fidelities → Built (revision.apply fidelities)
  | selected {fidelities chosen : Fidelities} {name : String} :
    Built fidelities → fidelities.select name = .ok chosen → Built chosen

section Active
variable {fidelities : Fidelities}

theorem activeIndex_of_selected {position : Nat} (h : fidelities.selected = some position)
    (hlt : position < fidelities.alternatives.length) : fidelities.activeIndex = position := by
  simp [activeIndex, h, hlt]

theorem activeIndex_of_dangles (h : fidelities.Dangles) : fidelities.activeIndex = 0 := by
  obtain ⟨position, hselected, hle⟩ := h
  have hnot : ¬ position < fidelities.alternatives.length := by omega
  simp [activeIndex, hselected, hnot]

/-- Where the stored position is a fidelity, or none is stored, more fidelities change nothing. -/
theorem activeIndex_eq_of_not_dangles {after : Fidelities} (h : ¬ fidelities.Dangles)
    (hselected : after.selected = fidelities.selected)
    (hlength : fidelities.alternatives.length ≤ after.alternatives.length) :
    after.activeIndex = fidelities.activeIndex := by
  cases hposition : fidelities.selected with
  | none => simp [activeIndex, hselected, hposition]
  | some position =>
    have hlt : position < fidelities.alternatives.length := by
      by_contra hnot
      exact h ⟨position, hposition, by omega⟩
    rw [activeIndex_of_selected hposition hlt,
      activeIndex_of_selected (hselected.trans hposition) (by omega)]

/-- A selection that is revived goes from the first fidelity to a later one. -/
theorem revived_of_dangles {after : Fidelities} (hdangles : fidelities.Dangles)
    (hselected : after.selected = fidelities.selected) (hrevived : ¬ after.Dangles) :
    after.selected = some after.activeIndex ∧
      fidelities.alternatives.length ≤ after.activeIndex := by
  obtain ⟨position, hposition, hle⟩ := hdangles
  have hafter := hselected.trans hposition
  have hlt : position < after.alternatives.length := by
    by_contra hnot
    exact hrevived ⟨position, hafter, by omega⟩
  rw [activeIndex_of_selected hafter hlt]
  exact ⟨hafter, hle⟩

theorem active_eq_getElem (fidelities : Fidelities) :
    fidelities.alternatives = [] ∧ fidelities.active = none ∨
      ∃ hlt : fidelities.activeIndex < fidelities.alternatives.length,
        fidelities.active = some fidelities.alternatives[fidelities.activeIndex] := by
  cases hactive : fidelities.active with
  | none => exact .inl ⟨alternatives_eq_nil hactive, rfl⟩
  | some fidelity =>
    have hlt := activeIndex_lt hactive
    exact .inr ⟨hlt, by rw [← hactive, active, List.getElem?_eq_getElem hlt]⟩

end Active

section Revise
variable (fidelities : Fidelities)

theorem selected_apply (revision : Revision) :
    (revision.apply fidelities).selected = fidelities.selected := by
  cases revision with
  | add fidelity => rfl
  | setProcess signature => exact (fidelities.setProcessSignature_exchanges signature).selected
  | strip => rfl

theorem names_apply (revision : Revision) : fidelities.alternatives.map Fidelity.name <+:
    (revision.apply fidelities).alternatives.map Fidelity.name := by
  cases revision with
  | add fidelity => simp [Revision.apply, add]
  | setProcess signature =>
    cases hactive : fidelities.active with
    | none => simp [alternatives_eq_nil hactive]
    | some fidelity =>
      obtain ⟨-, front, back, earlier, later, -, hbefore, -, -, hafter⟩ :=
        fidelities.setProcessSignature_exchanges signature
      rw [Revision.apply, hbefore, hafter]
      simp [hactive]
  | strip => simp [Revision.apply, strip, Function.comp_def]

theorem selected_revise (revisions : List Revision) :
    (fidelities.revise revisions).selected = fidelities.selected := by
  induction revisions generalizing fidelities with
  | nil => rfl
  | cons revision revisions ih => exact (ih _).trans (fidelities.selected_apply revision)

theorem names_revise (revisions : List Revision) : fidelities.alternatives.map Fidelity.name <+:
    (fidelities.revise revisions).alternatives.map Fidelity.name := by
  induction revisions generalizing fidelities with
  | nil => exact List.prefix_rfl
  | cons revision revisions ih => exact (fidelities.names_apply revision).trans (ih _)

theorem length_revise (revisions : List Revision) :
    fidelities.alternatives.length ≤ (fidelities.revise revisions).alternatives.length := by
  simpa using (fidelities.names_revise revisions).length_le

end Revise

section Select
variable {fidelities : Fidelities}

theorem Built.not_dangles (h : fidelities.Built) : ¬ fidelities.Dangles := by
  induction h with
  | ofList alternatives => simp [Dangles, Fidelities.ofList]
  | revised revision _ ih =>
    rename_i fidelities _
    -- no revision takes a fidelity away, so the position would have been too far before
    rintro ⟨position, hselected, hle⟩
    have hlength := fidelities.length_revise [revision]
    exact ih ⟨position, (fidelities.selected_apply revision).symm.trans hselected,
      Nat.le_trans hlength hle⟩
  | selected _ hselect _ =>
    rintro ⟨position, hselected, hle⟩
    unfold select at hselect
    split at hselect
    · rename_i found hfound
      obtain rfl := Except.ok.inj hselect
      obtain rfl : found = position := Option.some.inj hselected
      obtain ⟨hlt, -⟩ := List.findIdx?_eq_some_iff_getElem.mp hfound
      dsimp only at hle
      omega
    · cases hselect

/-- A unit whose fidelity cannot be selected is left as it was, but for its failure. -/
theorem dispatch_unselected {name : String} {error : DispatchError} {args : List Argument}
    {work : Work} (hselect : work.core.fidelities.select name = .error error)
    (hargs : Argument.fidelity? args = some name) {σ : Type} (shell : Shell σ)
    (txn : Option Transaction) (provider : Option String) (world : World σ) :
    ((Position.root txn provider args).dispatch shell work world).value =
      work.mapCore (·.fail error.asRoutine.toFault) := by
  have hchosen : Shell.selectFidelity args work = .error error := by
    simp only [Shell.selectFidelity, hargs, hselect]
  have hentered : (Position.root txn provider args).enter work = .error error := by
    rw [Position.enter, Shell.prepare_eq, hchosen]
    rfl
  exact Position.dispatch_unprepared_value _ shell hentered world

end Select

/-- Whatever is added, replaced or stripped, the active fidelity is one of the fidelities, and each
fidelity stays where it is. The active position changes only where it was loaded with a selection of
a fidelity that was not there and now is: that one is active from then on. A replaced process
signature is the only signature that changes, and a selection that fails changes nothing. -/
theorem active_position_kept_iff (fidelities : Fidelities) (revisions : List Revision) :
    let after := fidelities.revise revisions
    (after.alternatives = [] ∧ after.active = none ∨
      ∃ hlt : after.activeIndex < after.alternatives.length,
        after.active = some after.alternatives[after.activeIndex]) ∧
    fidelities.alternatives.map Fidelity.name <+: after.alternatives.map Fidelity.name ∧
    (fidelities.alternatives ≠ [] →
      (after.activeIndex = fidelities.activeIndex ↔ (fidelities.Dangles → after.Dangles))) ∧
    (fidelities.Dangles → ¬ after.Dangles → after.selected = some after.activeIndex) ∧
    (fidelities.Built → ¬ fidelities.Dangles) ∧
    (∀ signature, signature.role = .process →
      (after.setProcessSignature signature).processSignature = some signature ∧
        after.Exchanges signature (after.setProcessSignature signature)) ∧
    ∀ name error, after.select name = .error error →
      (Rehearsal.Edit.select name).onFidelities after = (after, .error error) ∧
      ∀ (σ : Type) (shell : Shell σ) (txn : Option Transaction) (provider : Option String)
        (args : List Argument) (work : Work) (world : World σ),
        work.core.fidelities = after → Argument.fidelity? args = some name →
          ((Position.root txn provider args).dispatch shell work world).value =
            work.mapCore (·.fail error.asRoutine.toFault) := by
  intro after
  have hselected : after.selected = fidelities.selected := fidelities.selected_revise revisions
  have hlength := fidelities.length_revise revisions
  refine ⟨after.active_eq_getElem, fidelities.names_revise revisions, fun hsome => ⟨?_, ?_⟩,
    fun hdangles hrevived => (revived_of_dangles hdangles hselected hrevived).1,
    Built.not_dangles, fun signature hrole => ?_, fun name error herror => ⟨?_, ?_⟩⟩
  · intro hkept hdangles
    by_contra hrevived
    -- the first fidelity was active, and one behind all those that were there is active now
    have hlate := (revived_of_dangles hdangles hselected hrevived).2
    rw [hkept, activeIndex_of_dangles hdangles] at hlate
    exact hsome (List.length_eq_zero_iff.mp (by omega))
  · intro hstill
    by_cases hdangles : fidelities.Dangles
    · rw [activeIndex_of_dangles hdangles, activeIndex_of_dangles (hstill hdangles)]
    · exact activeIndex_eq_of_not_dangles hdangles hselected hlength
  · exact ⟨after.processSignature_setProcessSignature hrole,
      after.setProcessSignature_exchanges signature⟩
  · simp only [Rehearsal.Edit.onFidelities, herror]
  · intro σ shell txn provider args work world hfidelities hargs
    exact dispatch_unselected (hfidelities ▸ herror) hargs shell txn provider world

def outgrown : Fidelities := ⟨[⟨"fast", [.net "add" "Adder"]⟩], some 1⟩

def twofold : Fidelities :=
  ⟨[⟨"fast", [.net "add" "Adder"]⟩, ⟨"precise", [.net "add" "BigAdder"]⟩], some 1⟩

theorem active_position_kept_iff_twofold :
    let revisions := [.setProcess (.net "exert" "Jobber"), .add ⟨"slow", []⟩, .strip]
    (twofold.Built ∧ twofold.alternatives ≠ [] ∧
      (twofold.revise revisions).activeIndex = twofold.activeIndex) ∧
    (outgrown.Dangles ∧ ¬ (outgrown.revise revisions).Dangles ∧
      (outgrown.revise revisions).selected = some (outgrown.revise revisions).activeIndex) ∧
    ((twofold.revise revisions).setProcessSignature (.net "add" "Adder")).processSignature =
      some (.net "add" "Adder") ∧
    ((Rehearsal.Edit.select "exact").onFidelities (twofold.revise revisions)).1 =
      twofold.revise revisions := by
  intro revisions
  have hchosen : (ofList twofold.alternatives).select "precise" = .ok twofold := rfl
  have hbuilt : twofold.Built := .selected (.ofList twofold.alternatives) hchosen
  have hsome : twofold.alternatives ≠ [] := by simp [twofold]
  have hdangles : outgrown.Dangles := ⟨1, rfl, Nat.le_refl 1⟩
  have hrevived : ¬ (outgrown.revise revisions).Dangles := by
    rintro ⟨position, hselected, hle⟩
    obtain rfl : 1 = position := Option.some.inj hselected
    exact absurd hle (by decide)
  obtain ⟨-, -, hkept, -, hsound, hbind, hselect⟩ := active_position_kept_iff twofold revisions
  obtain ⟨-, -, -, hafter, -⟩ := active_position_kept_iff outgrown revisions
  exact ⟨⟨hbuilt, hsome, (hkept hsome).mpr fun h => absurd h (hsound hbuilt)⟩,
    ⟨hdangles, hrevived, hafter hdangles hrevived⟩, (hbind _ rfl).1,
    congrArg Prod.fst (hselect "exact" _ rfl).1⟩

theorem ofText_stored (fidelities : Fidelities)
    (hselected : ∀ n ∈ fidelities.selected, n < UInt64.size) :
    Fidelities.reader.ofText fidelities.stored.text = some fidelities.withoutTargets := by
  unfold Json.Reader.ofText
  rw [Json.Document.ofText_text]
  exact fidelities.reader_reread hselected 121

/-- Fidelities that were loaded with a selection of one that is not there: the first is active,
until another one is added, which nobody has selected. -/
theorem selection_revived :
    let after := outgrown.revise [.add ⟨"precise", [.net "add" "BigAdder"]⟩]
    Fidelities.reader.ofText outgrown.stored.text = some outgrown ∧ outgrown.alternatives ≠ [] ∧
      after.activeIndex ≠ outgrown.activeIndex ∧
      outgrown.processSignature = some (.net "add" "Adder") ∧
      after.processSignature = some (.net "add" "BigAdder") := by
  have hloaded := ofText_stored outgrown (by decide)
  exact ⟨hloaded, by simp [outgrown], by decide, rfl, rfl⟩

end ServiceShell.Fidelities
