import Mathlib.Data.List.Basic
import ServiceShell.Work.Tree
/-!
Induction over the units of a tree, which units it has, and what a replacement of all cores leaves
of them.
-/
namespace ServiceShell.Work

theorem sizeOf_child {work child : Work} (h : child ∈ work.children) :
    sizeOf child < sizeOf work := by
  obtain ⟨core, body⟩ := work
  cases body with
  | task => simp [children] at h
  | model => simp [children] at h
  | job dependencies children =>
    have hlt : sizeOf child < sizeOf children := List.sizeOf_lt_of_mem h
    simp only [mk.sizeOf_spec, Body.job.sizeOf_spec]
    omega
  | block declared children =>
    have hlt : sizeOf child < sizeOf children := List.sizeOf_lt_of_mem h
    simp only [mk.sizeOf_spec, Body.block.sizeOf_spec]
    omega

@[elab_as_elim]
theorem induction {motive : Work → Prop}
    (step : ∀ work, (∀ child ∈ work.children, motive child) → motive work) (work : Work) :
    motive work :=
  step work fun child _hchild => induction step child
termination_by sizeOf work
decreasing_by exact sizeOf_child _hchild

theorem mem_childUnits {unit : Work} {children : List Work} :
    unit ∈ childUnits children ↔ ∃ child ∈ children, unit ∈ child.units := by
  induction children with
  | nil => simp [childUnits]
  | cons child rest ih => simp [childUnits, ih]

theorem childUnits_eq_flatMap (children : List Work) :
    childUnits children = children.flatMap units := by
  induction children with
  | nil => rfl
  | cons child rest ih => simp only [childUnits, ih, List.flatMap_cons]

theorem units_eq (work : Work) : work.units = childUnits work.children ++ [work] := by
  obtain ⟨core, body⟩ := work
  cases body <;> rfl

theorem mem_units {unit work : Work} :
    unit ∈ work.units ↔ (∃ child ∈ work.children, unit ∈ child.units) ∨ unit = work := by
  rw [units_eq, List.mem_append, mem_childUnits, List.mem_singleton]

theorem flatMap_units {α : Type} (f : Work → List α) (work : Work) : work.units.flatMap f =
    (work.children.flatMap fun child => child.units.flatMap f) ++ f work := by
  rw [units_eq, List.flatMap_append, childUnits_eq_flatMap, List.flatMap_assoc,
    List.flatMap_singleton]

section MapUnits
variable (change : Work → Core)

theorem mapChildren_eq_map (children : List Work) :
    mapChildren change children = children.map (mapUnits change) := by
  induction children with
  | nil => rfl
  | cons child rest ih => simp only [mapChildren, ih, List.map_cons]

@[simp] theorem mapUnits_core (work : Work) : (work.mapUnits change).core = change work := by
  cases work
  rfl

@[simp] theorem mapUnits_children (work : Work) :
    (work.mapUnits change).children = work.children.map (mapUnits change) := by
  obtain ⟨core, body⟩ := work
  cases body with
  | job dependencies children => exact mapChildren_eq_map change children
  | block declared children => exact mapChildren_eq_map change children
  | task model errands => rfl
  | model procedures => rfl

theorem mapUnits_kind (work : Work) : (work.mapUnits change).kind = work.kind := by
  obtain ⟨core, body⟩ := work
  cases body <;> simp only [mapUnits, mapBody, kind]

theorem units_mapUnits (work : Work) :
    (work.mapUnits change).units = work.units.map (mapUnits change) := by
  induction work using Work.induction with
  | step work ih =>
    rw [units_eq, units_eq work, mapUnits_children, childUnits_eq_flatMap, childUnits_eq_flatMap,
      List.flatMap_map, List.map_append, List.map_flatMap, List.flatMap_congr ih]
    rfl

end MapUnits
end ServiceShell.Work
