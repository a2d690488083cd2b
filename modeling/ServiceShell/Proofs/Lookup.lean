import Mathlib.Data.List.Basic
import ServiceShell.Context.Lookup
import ServiceShell.Proofs.OrderedMap
import ServiceShell.Proofs.Pointer
/-!
What is found at a path. Main statements: a level of the scope chain answers with the entry at the
path, or else from inside the object at the longest part of the path that has an answer; the
innermost level with an answer wins; and a change of one entry is noticed at its own path and below
it only.
-/
namespace ServiceShell

open Json (Value)
open Json.Pointer (resolve Denotes)

theorem mem_splits {text front back : List Char} :
    (front, back) ∈ splits text ↔ text = front ++ '/' :: back := by
  induction text generalizing front with
  | nil => simp [splits]
  | cons c text ih =>
    have hlater : (front, back) ∈ (splits text).map (fun split => (c :: split.1, split.2)) ↔
        ∃ rest, front = c :: rest ∧ text = rest ++ '/' :: back := by
      simp only [List.mem_map, Prod.mk.injEq, Prod.exists]
      constructor
      · rintro ⟨rest, _, hmem, rfl, rfl⟩
        exact ⟨rest, rfl, ih.mp hmem⟩
      · rintro ⟨rest, rfl, htext⟩
        exact ⟨rest, back, ih.mpr htext, rfl, rfl⟩
    unfold splits
    cases front with
    | nil =>
      by_cases hc : c = '/' <;> simp_all [eq_comm]
    | cons d front =>
      by_cases hc : c = '/' <;> simp_all [eq_comm]

theorem splits_descend (text : List Char) :
    (splits text).Pairwise fun longer shorter => shorter.1.length < longer.1.length := by
  induction text with
  | nil => exact .nil
  | cons c text ih =>
    have hlater : ((splits text).map fun split => (c :: split.1, split.2)).Pairwise
        fun longer shorter => shorter.1.length < longer.1.length :=
      List.pairwise_map.mpr (ih.imp fun h => Nat.succ_lt_succ h)
    unfold splits
    split
    · refine List.pairwise_append.mpr ⟨hlater, List.pairwise_singleton _ _, ?_⟩
      intro longer hlonger shorter hshorter
      obtain ⟨split, -, rfl⟩ := List.mem_map.mp hlonger
      rw [List.mem_singleton.mp hshorter]
      exact Nat.succ_pos _
    · exact hlater

theorem splits_append (front back : List Char) : splits (front ++ '/' :: back) =
    (splits back).map (fun split => (front ++ '/' :: split.1, split.2)) ++
      (front, back) :: (splits front).map (fun split => (split.1, split.2 ++ '/' :: back)) := by
  induction front with
  | nil => simp [splits]
  | cons c front ih =>
    rw [List.cons_append, splits, splits, ih]
    by_cases hc : c = '/' <;> simp [hc, Function.comp_def]

/-- Where sizes descend, the first value found is the one for the largest element that has any. -/
theorem findSome?_eq_some_iff_largest {α β : Type} {f : α → Option β} {size : α → Nat}
    {list : List α} (h : list.Pairwise fun larger smaller => size smaller < size larger) {b : β} :
    list.findSome? f = some b ↔
      ∃ a ∈ list, f a = some b ∧ ∀ other ∈ list, (f other).isSome → size other ≤ size a := by
  rw [List.findSome?_eq_some_iff]
  constructor
  · rintro ⟨larger, a, smaller, rfl, hvalue, hmiss⟩
    refine ⟨a, by simp, hvalue, fun other hother hsome => ?_⟩
    obtain hother | rfl | hother := List.mem_append.mp hother |>.imp_right List.mem_cons.mp
    · simp [hmiss other hother] at hsome
    · exact Nat.le_refl _
    · have hlater := (List.pairwise_cons.mp (List.pairwise_append.mp h).2.1).1
      exact Nat.le_of_lt (hlater other hother)
  · rintro ⟨a, hmem, hvalue, hlargest⟩
    obtain ⟨larger, smaller, rfl⟩ := List.append_of_mem hmem
    refine ⟨larger, a, smaller, rfl, hvalue, fun other hother => ?_⟩
    rw [← Option.not_isSome_iff_eq_none]
    intro hsome
    have hle := hlargest other (List.mem_append_left _ hother) hsome
    have hlt := (List.pairwise_append.mp h).2.2 other hother a List.mem_cons_self
    exact absurd hlt (Nat.not_lt.mpr hle)

theorem lookup_of_missing {entries : OrderedMap Value} {path : String}
    (h : entries.get? path = none) : lookup entries path =
      (splits path.toList).findSome? fun split => nestedValue entries split.1 split.2 := by
  unfold lookup
  rw [h]

theorem findSome?_congr {α β : Type} {f g : α → Option β} {list : List α}
    (h : ∀ a ∈ list, f a = g a) : list.findSome? f = list.findSome? g := by
  rw [← List.head?_filterMap, ← List.head?_filterMap, List.filterMap_congr h]

/-- A reading of a path: the value that the part behind a slash denotes in the object that is stored
at the part in front of it. -/
def Nested (entries : OrderedMap Value) (path front : String) (value : Value) : Prop :=
  ∃ rest members, path = front ++ "/" ++ rest ∧ entries.get? front = some (.object members) ∧
    Denotes (.object members) rest.toList value

/-- What a level of a scope chain answers for a path: the entry that is stored there, or else the
nested value with the longest part in front. -/
inductive Answers (entries : OrderedMap Value) (path : String) : Value → Prop
  | stored {value : Value} : entries.get? path = some value → Answers entries path value
  | nested {front : String} {value : Value} : entries.get? path = none →
    Nested entries path front value →
      (∀ other found, Nested entries path other found → other.length ≤ front.length) →
        Answers entries path value

theorem toList_path (front rest : String) :
    (front ++ "/" ++ rest).toList = front.toList ++ '/' :: rest.toList := by
  simp

theorem nestedValue_eq_some_iff {entries : OrderedMap Value} {front : String} {back : List Char}
    {value : Value} : nestedValue entries front.toList back = some value ↔
      ∃ members, entries.get? front = some (.object members) ∧
        Denotes (.object members) back value := by
  unfold nestedValue
  rw [String.ofList_toList]
  constructor
  · intro h
    split at h
    · rename_i members hstored
      exact ⟨members, hstored, Json.Pointer.resolve_eq_some_iff.mp h⟩
    · cases h
  · rintro ⟨members, hstored, hdenotes⟩
    rw [hstored]
    exact Json.Pointer.resolve_eq_some_iff.mpr hdenotes

/-- The readings of a path are its splits. -/
theorem nested_iff {entries : OrderedMap Value} {path front : String} {value : Value} :
    Nested entries path front value ↔ ∃ back, (front.toList, back) ∈ splits path.toList ∧
      nestedValue entries front.toList back = some value := by
  simp only [mem_splits, nestedValue_eq_some_iff]
  constructor
  · rintro ⟨rest, members, rfl, hstored, hdenotes⟩
    exact ⟨rest.toList, toList_path front rest, members, hstored, hdenotes⟩
  · rintro ⟨back, hpath, members, hstored, hdenotes⟩
    refine ⟨String.ofList back, members, String.toList_injective ?_, hstored, ?_⟩
    · rw [toList_path, String.toList_ofList, hpath]
    · rwa [String.toList_ofList]

theorem lookup_eq_some_iff {entries : OrderedMap Value} {path : String} {value : Value} :
    lookup entries path = some value ↔ Answers entries path value := by
  cases hstored : entries.get? path with
  | some stored =>
    unfold lookup
    rw [hstored]
    constructor
    · rintro ⟨⟩
      exact .stored hstored
    · rintro (h | ⟨hnone, -, -⟩)
      · rw [← hstored, h]
      · rw [hstored] at hnone
        cases hnone
  | none =>
    rw [lookup_of_missing hstored, findSome?_eq_some_iff_largest (splits_descend path.toList)]
    constructor
    · rintro ⟨⟨front, back⟩, hmem, hvalue, hlongest⟩
      obtain ⟨front, rfl⟩ : ∃ text : String, front = text.toList := ⟨_, String.toList_ofList.symm⟩
      refine .nested hstored (nested_iff.mpr ⟨back, hmem, hvalue⟩) fun other found hother => ?_
      obtain ⟨rest, hother, hfound⟩ := nested_iff.mp hother
      exact hlongest _ hother (Option.isSome_of_eq_some hfound)
    · rintro (h | @⟨front, _, -, hnested, hlongest⟩)
      · rw [hstored] at h
        cases h
      · obtain ⟨back, hmem, hvalue⟩ := nested_iff.mp hnested
        refine ⟨(front.toList, back), hmem, hvalue, ?_⟩
        rintro ⟨other, rest⟩ hother hsome
        obtain ⟨other, rfl⟩ : ∃ text : String, other = text.toList :=
          ⟨_, String.toList_ofList.symm⟩
        obtain ⟨found, hfound⟩ := Option.isSome_iff_exists.mp hsome
        exact hlongest other found (nested_iff.mpr ⟨rest, hother, hfound⟩)

theorem lookup_eq_none_iff {entries : OrderedMap Value} {path : String} :
    lookup entries path = none ↔ ∀ value, ¬ Answers entries path value := by
  simp only [Option.eq_none_iff_forall_ne_some, ne_eq, lookup_eq_some_iff]

def Within (top path : String) : Prop :=
  path = top ∨ (top ++ "/").toList <+: path.toList

instance (top path : String) : Decidable (Within top path) :=
  inferInstanceAs (Decidable (_ ∨ _))

/-- Only the entry at a path and those at its parts in front of a slash count. -/
theorem lookup_congr {entries others : OrderedMap Value} {path : String}
    (h : ∀ key, Within key path → entries.get? key = others.get? key) :
    lookup entries path = lookup others path := by
  have hnested : ∀ split ∈ splits path.toList,
      nestedValue entries split.1 split.2 = nestedValue others split.1 split.2 := by
    rintro ⟨front, back⟩ hmem
    unfold nestedValue
    rw [h]
    refine .inr ⟨back, ?_⟩
    rw [mem_splits.mp hmem]
    simp
  unfold lookup
  rw [h path (.inl rfl), findSome?_congr hnested]

theorem nestedValue_append (entries : OrderedMap Value) (front back below : List Char) :
    nestedValue entries front (back ++ '/' :: below) =
      (nestedValue entries front back).bind (resolve · below) := by
  unfold nestedValue
  split
  · exact Json.Pointer.resolve_append _ back below
  · rfl

/-- Inside an object that is found, whether it is stored or nested, there is something to be found
wherever its members go on. -/
theorem lookup_isSome_below {entries : OrderedMap Value} {front path : String} {back : List Char}
    {members : List (String × Value)} (hfront : lookup entries front = some (.object members))
    (hpath : path.toList = front.toList ++ '/' :: back)
    (hback : (resolve (.object members) back).isSome) : (lookup entries path).isSome := by
  have hsplit : ∃ split ∈ splits path.toList, (nestedValue entries split.1 split.2).isSome := by
    cases hstored : entries.get? front with
    | some stored =>
      obtain rfl : stored = .object members := by simpa [lookup, hstored] using hfront
      refine ⟨(front.toList, back), mem_splits.mpr hpath, ?_⟩
      simpa only [nestedValue, String.ofList_toList, hstored] using hback
    | none =>
      rw [lookup_of_missing hstored] at hfront
      obtain ⟨⟨top, between⟩, hmem, hvalue⟩ := List.exists_of_findSome?_eq_some hfront
      refine ⟨(top, between ++ '/' :: back), mem_splits.mpr ?_, ?_⟩
      · rw [hpath, mem_splits.mp hmem, List.append_assoc, List.cons_append]
      · rw [nestedValue_append, hvalue]
        exact hback
  cases hstored : entries.get? path with
  | some value => simp [lookup, hstored]
  | none =>
    rw [lookup_of_missing hstored]
    exact List.findSome?_isSome_iff.mpr hsplit

namespace Context

theorem get?_isSome_below {context : Context} {front path : String} {back : List Char}
    {members : List (String × Value)} (hfront : context.get? front = some (.object members))
    (hpath : path.toList = front.toList ++ '/' :: back)
    (hback : (resolve (.object members) back).isSome) : (context.get? path).isSome := by
  obtain ⟨level, hlevel, hfound⟩ := List.exists_of_findSome?_eq_some hfront
  exact List.findSome?_isSome_iff.mpr ⟨level, hlevel, lookup_isSome_below hfound hpath hback⟩

theorem get?_eq (context : Context) (path : String) : context.get? path =
    (lookup context.entries path).or (context.scope.bind (·.get? path)) := by
  obtain ⟨_, entries, _ | outer, _, _⟩ := context
  · simp [get?, levels]
  · simp only [get?, levels, List.findSome?_cons, Option.bind_some]
    cases lookup entries path <;> rfl

theorem get?_congr {context other : Context} (hentries : context.entries = other.entries)
    (hscope : context.scope = other.scope) (path : String) :
    context.get? path = other.get? path := by
  rw [get?_eq, get?_eq, hentries, hscope]

theorem get?_of_entry {context : Context} {path : String} {value : Value}
    (h : context.entries.get? path = some value) : context.get? path = some value := by
  rw [get?_eq, lookup_eq_some_iff.mpr (.stored h), Option.some_or]

theorem get?_of_clearScope {context : Context} {path : String} {value : Value}
    (h : context.clearScope.get? path = some value) : context.get? path = some value := by
  rw [get?_eq] at h
  have hown : lookup context.entries path = some value := by simpa [clearScope] using h
  rw [get?_eq, hown, Option.some_or]

theorem get?_eq_of_entries {context : Context} {entries : OrderedMap Value} {changed path : String}
    (h : ¬ Within changed path)
    (hentries : ∀ key, changed ≠ key → entries.get? key = context.entries.get? key) :
    ({ context with entries } : Context).get? path = context.get? path := by
  rw [get?_eq, get?_eq, lookup_congr fun key hkey => hentries key fun hsame => h (hsame ▸ hkey)]

/-- The innermost level of the scope chain that has an answer gives it, and nothing is found exactly
if no level has one. An entry that is stored or removed changes what is found at its own path and
below it, and nowhere else. -/
theorem innermost_answers (context : Context) (path : String) :
    (∀ value, context.get? path = some value ↔ ∃ inner level outer,
      context.levels = inner ++ level :: outer ∧ Answers level path value ∧
        ∀ nearer ∈ inner, ∀ other, ¬ Answers nearer path other) ∧
    (context.get? path = none ↔ ∀ level ∈ context.levels, ∀ value, ¬ Answers level path value) ∧
    ∀ changed, ¬ Within changed path →
      (∀ value, (context.put changed value).get? path = context.get? path) ∧
        (context.remove changed).get? path = context.get? path := by
  refine ⟨fun value => ?_, ?_, fun changed h => ?_⟩
  · simp only [get?, List.findSome?_eq_some_iff, lookup_eq_some_iff, lookup_eq_none_iff]
  · simp only [get?, List.findSome?_eq_none_iff, lookup_eq_none_iff]
  · refine ⟨fun value => get?_eq_of_entries h fun key hkey => ?_,
      get?_eq_of_entries h fun key hkey => ?_⟩
    · rw [OrderedMap.get?_put, if_neg hkey]
    · rw [OrderedMap.get?_erase, if_neg hkey]

def taxed : Context :=
  ((named "order").put "order" (.object [("net", .ofInt 40)])
    |>.put "order/tax" (.string "reduced")).withScope
      ((named "customer").put "order/tax/rate" (.ofInt 7))

theorem innermost_answers_taxed :
    taxed.get? "order/tax/rate" = some (.ofInt 7) ∧
      (∃ inner level outer, taxed.levels = inner ++ level :: outer ∧
        Answers level "order/tax/rate" (.ofInt 7) ∧
          ∀ nearer ∈ inner, ∀ other, ¬ Answers nearer "order/tax/rate" other) ∧
      ¬ Within "order/net" "order/tax/rate" ∧
      (taxed.put "order/net" (.ofInt 1)).get? "order/tax/rate" = some (.ofInt 7) := by
  have hfound : taxed.get? "order/tax/rate" = some (.ofInt 7) := by rfl
  have hapart : ¬ Within "order/net" "order/tax/rate" := by decide
  obtain ⟨hlevel, -, hchange⟩ := taxed.innermost_answers "order/tax/rate"
  exact ⟨hfound, (hlevel _).mp hfound, hapart, ((hchange _ hapart).1 _).trans hfound⟩

end Context
end ServiceShell
