import ServiceShell.Context.Basic
import ServiceShell.Proofs.OrderedMap
/-!
Contexts put over one another. Whoever merges contexts, a job its children, a task what a step or a
stand-in has left, may put them together in any grouping: the entries come out the same, and in the
same order.
-/
namespace ServiceShell.Context

/-- How a context is after another one has been put over it: the known paths at their places, the
new ones behind them, each with the value of the other context where that has one. -/
structure Overlaid (context other result : Context) : Prop where
  entries : result.entries.toList =
    context.entries.toList.map (fun (path, value) =>
      (path, (other.entries.get? path).getD value)) ++
      other.entries.toList.filter fun (path, _) => path ∉ context.entries.keys
  name : result.name = context.name
  scope : result.scope = context.scope
  request : result.request = context.request
  finalized : result.finalized = context.finalized

theorem overlay_overlaid (context other : Context) :
    context.Overlaid other (context.overlay other) where
  entries := OrderedMap.toList_overlay context.entries other.entries
  name := rfl
  scope := rfl
  request := rfl
  finalized := rfl

theorem overlay_assoc (a b c : Context) : (a.overlay b).overlay c = a.overlay (b.overlay c) := by
  simp only [overlay, OrderedMap.overlay_assoc]

theorem overlay_self (context : Context) : context.overlay context = context := by
  cases context
  simp only [overlay, OrderedMap.overlay_self]

theorem foldl_overlay (contexts : List Context) (a b : Context) :
    contexts.foldl overlay (a.overlay b) = a.overlay (contexts.foldl overlay b) := by
  induction contexts generalizing b with
  | nil => rfl
  | cons context contexts ih => rw [List.foldl_cons, List.foldl_cons, overlay_assoc, ih]

/-- Overlaying is associative, for two contexts as for any number of them, and overlaying again with
what is there already changes nothing. Of the upper context nothing but the entries counts. -/
theorem overlay_laws (a b c : Context) :
    (a.overlay b).overlay c = a.overlay (b.overlay c) ∧
    (∀ contexts : List Context,
      contexts.foldl overlay (a.overlay b) = a.overlay (contexts.foldl overlay b)) ∧
    a.overlay a = a ∧
    (a.overlay b).overlay b = a.overlay b ∧
    a.Overlaid b (a.overlay b) ∧
    ∀ name scope request finalized,
      a.overlay ⟨name, b.entries, scope, request, finalized⟩ = a.overlay b := by
  have htwice : (a.overlay b).overlay b = a.overlay b := by rw [overlay_assoc, overlay_self]
  exact ⟨overlay_assoc a b c, fun contexts => foldl_overlay contexts a b, overlay_self a, htwice,
    overlay_overlaid a b, fun _ _ _ _ => rfl⟩

/-- A path that both know stays where it was and takes the new value. -/
example :
    let order := ((named "order").put "net" (.ofNat 40)).put "rate" (.ofNat 7)
    let change := (((named "change").put "gross" (.ofNat 47)).put "net" (.ofNat 44)).withScope order
    (order.overlay change).entries.keys = ["net", "rate", "gross"] := by
  decide

end ServiceShell.Context
