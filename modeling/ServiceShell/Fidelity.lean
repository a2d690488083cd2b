import ServiceShell.Signature
/-!
Fidelities: alternative sets of signatures of one unit of work. One of them is active: the selected
one, or the first where the selection names none.
-/
namespace ServiceShell

structure Fidelity where
  name : String
  selects : List Signature

def Fidelity.processSignature (fidelity : Fidelity) : Option Signature :=
  fidelity.selects.find? Signature.isProcess

structure Fidelities where
  alternatives : List Fidelity
  selected : Option Nat

namespace Fidelities

def empty : Fidelities := ⟨[], none⟩

def ofList (alternatives : List Fidelity) : Fidelities := ⟨alternatives, none⟩

def ofSignatures (signatures : List Signature) : Fidelities := ofList [⟨"", signatures⟩]

def add (fidelities : Fidelities) (fidelity : Fidelity) : Fidelities :=
  { fidelities with alternatives := fidelities.alternatives ++ [fidelity] }

def select (fidelities : Fidelities) (name : String) : Except DispatchError Fidelities :=
  match fidelities.alternatives.findIdx? (fun fidelity => fidelity.name = name) with
  | some position => .ok { fidelities with selected := some position }
  | none => .error (.configuration s!"no fidelity named '{name}'")

/-- The position of the active fidelity; a selection out of range counts as none. -/
def activeIndex (fidelities : Fidelities) : Nat :=
  match fidelities.selected with
  | some position => if position < fidelities.alternatives.length then position else 0
  | none => 0

def active (fidelities : Fidelities) : Option Fidelity :=
  fidelities.alternatives[fidelities.activeIndex]?

def selects (fidelities : Fidelities) : List Signature :=
  match fidelities.active with
  | some fidelity => fidelity.selects
  | none => []

def processSignature (fidelities : Fidelities) : Option Signature :=
  fidelities.active.bind Fidelity.processSignature

/-- Replaces the first element that satisfies `p`, or puts the new one in front if none does. -/
def replaceFirst {α : Type} (p : α → Bool) (new : α) (list : List α) : List α :=
  match list.findIdx? p with
  | some position => list.set position new
  | none => new :: list

def setProcessSignature (fidelities : Fidelities) (signature : Signature) : Fidelities :=
  match fidelities.active with
  | none => { fidelities with alternatives := [⟨"", [signature]⟩] }
  | some fidelity =>
    let selects := replaceFirst Signature.isProcess signature fidelity.selects
    { fidelities with
      alternatives := fidelities.alternatives.set fidelities.activeIndex { fidelity with selects } }

def strip (fidelities : Fidelities) : Fidelities :=
  { fidelities with alternatives := fidelities.alternatives.map fun fidelity =>
      { fidelity with selects := fidelity.selects.filter Signature.isTransportable } }

end Fidelities
end ServiceShell
