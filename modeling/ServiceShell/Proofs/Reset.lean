import Mathlib.Data.List.Forall2
import ServiceShell.Proofs.OrderedMap
import ServiceShell.Proofs.Tree
/-!
The reset of an initial unit and its descendants, unit by unit. The logs go by the state: an initial
unit loses them, and any other one keeps them. The data does not: whatever its state is, a block has
its declared context put over its own entries, so that it may lose what it has accumulated, and may
keep what it was not declared with.
-/
namespace ServiceShell.Work

/-- What a reset puts over the entries of a unit: for a block its declared context, overlaid by the
entries among the arguments in order, and then by the last incoming context with an entry; for any
other unit nothing. -/
def renewal (args : List Argument) (unit : Work) : OrderedMap Json.Value :=
  match unit.body with
  | .block declared _ =>
    let entries := declared.entries.putAll (Argument.entries args)
    match Argument.incoming? args with
    | some incoming => entries.overlay incoming.entries
    | none => entries
  | _ => .empty

def renewed (args : List Argument) (unit : Work) : Context :=
  { unit.core.context with
    scope := none, entries := unit.core.context.entries.overlay (unit.renewal args) }

theorem renewed_block (args : List Argument) (core : Core) (declared : Context)
    (children : List Work) :
    let restored := (core.context.clearScope).overlay declared
    let filled := { restored with entries := restored.entries.putAll (Argument.entries args) }
    renewed args ⟨core, .block declared children⟩ =
      match Argument.incoming? args with
      | some incoming => filled.overlay incoming
      | none => filled := by
  dsimp only [renewed, renewal, Context.overlay, Context.clearScope]
  rw [OrderedMap.overlay_putAll]
  cases Argument.incoming? args with
  | none => rfl
  | some incoming =>
    dsimp only
    rw [OrderedMap.overlay_assoc]

theorem resetCore_of_initial {unit : Work} (h : unit.core.control.state = .initial)
    (args : List Argument) : resetCore args unit =
      { unit.core with
        context := unit.renewed args, status := .initial, exceptions := [],
        control := { unit.core.control with trace := [] } } := by
  obtain ⟨core, body⟩ := unit
  unfold resetCore
  dsimp only at h ⊢
  rw [if_pos h]
  cases body with
  | block declared children => rw [renewed_block]; rfl
  | task | job | model => rfl

theorem resetCore_of_not_initial {unit : Work} (h : unit.core.control.state ≠ .initial)
    (args : List Argument) :
    resetCore args unit = { unit.core with context := unit.renewed args } := by
  obtain ⟨core, body⟩ := unit
  unfold resetCore
  dsimp only at h ⊢
  rw [if_neg h]
  cases body with
  | block declared children => rw [renewed_block]; rfl
  | task | job | model => rfl

/-- In any state a reset changes context, status and logs of a unit, and nothing else. -/
theorem resetCore_frame (args : List Argument) (unit : Work) : ∃ status exceptions trace,
    resetCore args unit =
      { unit.core with
        context := unit.renewed args, status, exceptions
        control := { unit.core.control with trace } } := by
  by_cases h : unit.core.control.state = .initial
  · exact ⟨_, _, _, resetCore_of_initial h args⟩
  · exact ⟨_, _, _, resetCore_of_not_initial h args⟩

/-- What holds of a unit and its reset holds all over the tree, place by place. -/
theorem forall₂_units_reset {args : List Argument} {work : Work}
    (hinitial : work.core.control.state = .initial) {related : Work → Work → Prop}
    (h : ∀ unit, related unit (unit.mapUnits (resetCore args))) :
    List.Forall₂ related work.units (work.reset args).units := by
  unfold reset
  rw [if_pos hinitial, units_mapUnits, List.forall₂_map_right_iff, List.forall₂_same]
  exact fun unit _ => h unit

structure Undisturbed (unit after : Work) : Prop where
  entries : after.core.context.entries = unit.core.context.entries
  exceptions : after.core.exceptions = unit.core.exceptions
  trace : after.core.control.trace = unit.core.control.trace
  status : after.core.status = unit.core.status

/-- A unit that is not initial loses nothing but its scope, if it is no block or has at every path
of its declared context, of the entries and of the incoming context the value that these have there.
Otherwise its entries are overlaid. -/
theorem reset_undisturbed_iff (args : List Argument) {work : Work}
    (hroot : work.core.control.state = .initial) :
    List.Forall₂ (fun unit after => unit.core.control.state ≠ .initial →
      after.core = { unit.core with context := unit.renewed args } ∧
        (Undisturbed unit after ↔ ∀ path value, (unit.renewal args).get? path = some value →
          unit.core.context.entries.get? path = some value))
      work.units (work.reset args).units := by
  refine forall₂_units_reset hroot fun unit hstate => ?_
  have hcore : (unit.mapUnits (resetCore args)).core =
      { unit.core with context := unit.renewed args } := by
    rw [mapUnits_core, resetCore_of_not_initial hstate]
  refine ⟨hcore, ?_⟩
  rw [← OrderedMap.overlay_eq_left_iff]
  constructor
  · intro h
    have hentries := h.entries
    rw [hcore] at hentries
    exact hentries
  · intro h
    constructor <;> rw [hcore]
    exact h

def opening : Work :=
  (ofSignature (.ofNat 2) "opening" (.net "open" "Door")).mapCore fun core =>
    (core.report (.exception "late")).setStatus .done

def tally : Work :=
  ⟨((Core.fresh (.ofNat 3) "tally").mapContext (·.put "sales" (.ofInt 50))).setStatus .suspended,
    .block ((Context.named "tally").put "sales" (.ofInt 0)) []⟩

def day : Work := ⟨.fresh (.ofNat 1) "day", .job [] [opening, tally]⟩

theorem reset_undisturbed_iff_day :
    day.core.control.state = .initial ∧ ∃ opened counted ended,
      (day.reset []).units = [opened, counted, ended] ∧
        Undisturbed opening opened ∧ ¬ Undisturbed tally counted := by
  have hroot : day.core.control.state = .initial := rfl
  have hunits := reset_undisturbed_iff [] hroot
  rw [show day.units = [opening, tally, day] from rfl] at hunits
  obtain ⟨opened, _, hopening, hrest, hafter⟩ := List.forall₂_cons_left_iff.mp hunits
  obtain ⟨counted, _, htally, hlast, rfl⟩ := List.forall₂_cons_left_iff.mp hrest
  obtain ⟨ended, _, -, hnil, rfl⟩ := List.forall₂_cons_left_iff.mp hlast
  obtain rfl := List.forall₂_nil_left_iff.mp hnil
  obtain ⟨-, hopened⟩ := hopening (by decide)
  obtain ⟨-, hcounted⟩ := htally (by decide)
  refine ⟨hroot, opened, counted, ended, hafter, hopened.mpr fun path value hnew => ?_, fun h => ?_⟩
  · exact absurd hnew (by simp [renewal, opening, ofSignature, mapCore])
  · have hsales := hcounted.mp h "sales" (.ofInt 0) rfl
    exact absurd (congrArg (Option.bind · Json.Value.asInt?) hsales) (by decide)

/-- The suspended block does not go on with what it has counted. -/
theorem suspended_block_restarted :
    day.core.control.state = .initial ∧ day.child? "tally" = some tally ∧
      tally.core.control.state = .suspended ∧
      tally.core.context.entries.get? "sales" = some (.ofInt 50) ∧
      ((day.reset []).child? "tally").bind (·.core.context.entries.get? "sales") =
        some (.ofInt 0) :=
  ⟨rfl, rfl, rfl, rfl, rfl⟩

/-- An initial unit starts over without logs and scope. A block among them has what it is declared
with, overlaid by the entries and the incoming context, and behind it all that it had at other paths
before; so it starts over from what it is declared with if it had nothing at other paths. -/
theorem reset_renews_iff (args : List Argument) {work : Work}
    (hroot : work.core.control.state = .initial) :
    List.Forall₂ (fun unit after => unit.core.control.state = .initial →
      (after.core.exceptions = [] ∧ after.core.control.trace = [] ∧
        after.core.context.scope = none) ∧
      (∀ path, after.core.context.entries.get? path =
        ((unit.renewal args).get? path).or (unit.core.context.entries.get? path)) ∧
      (unit.kind = .block →
        ((∀ path, after.core.context.entries.get? path = (unit.renewal args).get? path) ↔
          unit.core.context.entries.keys ⊆ (unit.renewal args).keys)))
      work.units (work.reset args).units := by
  refine forall₂_units_reset hroot fun unit hstate => ?_
  rw [mapUnits_core, resetCore_of_initial hstate]
  exact ⟨⟨rfl, rfl, rfl⟩, OrderedMap.get?_overlay _ _,
    fun _ => OrderedMap.get?_overlay_eq_upper_iff⟩

def ledger : Work :=
  ⟨(Core.fresh (.ofNat 2) "ledger").mapContext (·.put "balance" (.ofInt 50)),
    .block ((Context.named "ledger").put "balance" (.ofInt 1)) []⟩

theorem reset_renews_iff_ledger :
    ledger.core.control.state = .initial ∧
      ∀ path, (ledger.reset [.entry "rate" (.ofInt 2)]).core.context.entries.get? path =
        (ledger.renewal [.entry "rate" (.ofInt 2)]).get? path := by
  have hroot : ledger.core.control.state = .initial := rfl
  refine ⟨hroot, ?_⟩
  have hunits := reset_renews_iff [.entry "rate" (.ofInt 2)] hroot
  obtain ⟨hledger, -⟩ := List.forall₂_cons.mp hunits
  obtain ⟨-, -, hblock⟩ := hledger rfl
  exact (hblock rfl).mpr (by decide +kernel)

def noted : Work := ledger.mapCore (·.mapContext (·.put "note" (.string "checked")))

/-- The entry is still there after a reset. -/
theorem leftover_survives_reset :
    noted.core.control.state = .initial ∧ (noted.renewal []).get? "note" = none ∧
      (noted.reset []).core.context.entries.get? "note" = some (.string "checked") :=
  ⟨rfl, rfl, rfl⟩

end ServiceShell.Work
