import Mathlib.Data.List.Induction
import ServiceShell.Proofs.Lookup
/-!
A selection of paths as a context of its own. Main statement: at every path it was made for it
answers as the context that it was made from, and it keeps the paths in order.
-/
namespace ServiceShell.Context

open Json (Value)

theorem select_append (context : Context) (paths : List String) (path : String) :
    context.select (paths ++ [path]) = match context.get? path with
      | some value => (context.select paths).put path value
      | none => context.select paths := by
  unfold select
  rw [List.foldl_append]
  rfl

theorem select_eq (context : Context) (paths : List String) :
    ∃ entries, context.select paths = { named context.name with entries } := by
  induction paths using List.reverseRecOn with
  | nil => exact ⟨.empty, rfl⟩
  | append_singleton paths path ih =>
    obtain ⟨entries, hselected⟩ := ih
    rw [select_append, hselected]
    cases context.get? path with
    | none => exact ⟨entries, rfl⟩
    | some value => exact ⟨entries.put path value, rfl⟩

theorem scope_select (context : Context) (paths : List String) :
    (context.select paths).scope = none := by
  obtain ⟨entries, hselected⟩ := context.select_eq paths
  rw [hselected]
  rfl

/-- What is stored is what is found in the original, at the selected paths. -/
theorem get?_entries_select (context : Context) (paths : List String) (key : String) :
    (context.select paths).entries.get? key = if key ∈ paths then context.get? key else none := by
  induction paths using List.reverseRecOn with
  | nil => rfl
  | append_singleton paths path ih =>
    rw [select_append]
    by_cases hkey : path = key
    · subst hkey
      cases hpath : context.get? path with
      | some value => simp [put]
      | none => simp [ih, hpath]
    · have hmem : key ∈ paths ++ [path] ↔ key ∈ paths := by simp [eq_comm (a := key), hkey]
      simp only [hmem, ← ih]
      split
      · exact (OrderedMap.get?_put ..).trans (if_neg hkey)
      · rfl

theorem keys_entries_select (context : Context) (paths : List String) :
    (context.select paths).entries.keys = (paths.filter context.contains).eraseDups := by
  induction paths using List.reverseRecOn with
  | nil => rfl
  | append_singleton paths path ih =>
    rw [select_append, List.filter_append, List.eraseDups_append]
    cases hpath : context.get? path with
    | none => simp [ih, contains, hpath]
    | some value =>
      have hone : [path].filter context.contains = [path] := by simp [contains, hpath]
      have hput : ((context.select paths).put path value).entries.keys = _ :=
        OrderedMap.keys_put ..
      rw [hput, ih, hone]
      generalize paths.filter context.contains = earlier
      by_cases hmem : path ∈ earlier
      · rw [if_pos (List.mem_eraseDups.mpr hmem)]
        simp [List.removeAll, hmem]
      · rw [if_neg fun h => hmem (List.mem_eraseDups.mp h)]
        simp [List.removeAll, hmem, List.eraseDups_cons]

/-- At a path it was made for, present or not, a selection answers as the original. -/
theorem get?_select {context : Context} {paths : List String} {path : String}
    (h : path ∈ paths) : (context.select paths).get? path = context.get? path := by
  have hlookup : (context.select paths).get? path =
      lookup (context.select paths).entries path := by
    rw [get?_eq, scope_select]
    exact Option.or_none
  have hstored : (context.select paths).entries.get? path = context.get? path := by
    rw [get?_entries_select, if_pos h]
  rw [hlookup]
  cases hfound : context.get? path with
  | some value => exact lookup_eq_some_iff.mpr (.stored (hstored.trans hfound))
  | none =>
    refine lookup_eq_none_iff.mpr fun value hanswer => ?_
    obtain hvalue | ⟨-, ⟨rest, members, hpath, hfront, hdenotes⟩, -⟩ := hanswer
    · rw [hstored, hfound] at hvalue
      cases hvalue
    · -- the object that would answer was found in the original, so its members were to be found too
      rw [get?_entries_select] at hfront
      obtain ⟨-, hfront⟩ := Option.ite_none_right_eq_some.mp hfront
      have hbelow := get?_isSome_below hfront (hpath ▸ toList_path _ rest)
        (Option.isSome_of_eq_some (Json.Pointer.resolve_eq_some_iff.mpr hdenotes))
      rw [hfound] at hbelow
      cases hbelow

/-- A selection answers as the original at every path that was selected, whether the original has an
answer there or not, and its entries stand in the order in which their paths come first. -/
theorem select_faithful (context : Context) (paths : List String) :
    (∀ path ∈ paths, (context.select paths).get? path = context.get? path) ∧
      (context.select paths).entries.keys = (paths.filter context.contains).eraseDups :=
  ⟨fun _ => get?_select, context.keys_entries_select paths⟩

/-- The order is selected with two paths below it, one that only the customer knows and one that
nobody knows. -/
theorem select_faithful_taxed :
    let paths := ["order/tax/rate", "order/gross", "order", "order/tax/rate"]
    "order/gross" ∈ paths ∧ (taxed.select paths).get? "order/gross" = none ∧
      "order/tax/rate" ∈ paths ∧
      (taxed.select paths).get? "order/tax/rate" = some (.ofInt 7) ∧
      (taxed.select paths).entries.keys = ["order/tax/rate", "order"] := by
  intro paths
  obtain ⟨hanswers, hkeys⟩ := taxed.select_faithful paths
  have hgross : "order/gross" ∈ paths := by decide
  have hrate : "order/tax/rate" ∈ paths := by decide
  refine ⟨hgross, (hanswers _ hgross).trans ?_, hrate, (hanswers _ hrate).trans ?_,
    hkeys.trans ?_⟩
  · rfl
  · rfl
  · decide

end ServiceShell.Context
