import ServiceShell.Proofs.Lookup
/-!
A context that is stored in another one as a nested value, and read back path by path. A path is
taken as a reference into the nested value there, so an entry is found again under its path if that
is a plain segment, and under its path written as a segment in any case.
-/
namespace ServiceShell

open Json (Value)
open Json.Pointer (resolve Denotes escape)

/-- Where nothing is stored below `top`, a path below it is read inside the object at `top`, and
then inside the objects at the parts of `top`. -/
theorem lookup_below {entries : OrderedMap Value} {top : String}
    (hfree : ∀ key, Within top key → key ≠ top → entries.get? key = none) (rest : String) :
    lookup entries (top ++ "/" ++ rest) =
      (nestedValue entries top.toList rest.toList).or
        ((splits top.toList).findSome? fun split =>
          nestedValue entries split.1 (split.2 ++ '/' :: rest.toList)) := by
  have hbelow (text : List Char) (key : String) (hkey : key.toList = top.toList ++ '/' :: text) :
      entries.get? key = none := by
    refine hfree key (.inr ⟨text, by simp [hkey]⟩) fun hsame => ?_
    simpa [hsame] using congrArg List.length hkey
  have hlonger : ((splits rest.toList).map fun split =>
      (top.toList ++ '/' :: split.1, split.2)).findSome?
        (fun split => nestedValue entries split.1 split.2) = none := by
    refine List.findSome?_eq_none_iff.mpr fun split hsplit => ?_
    obtain ⟨below, -, rfl⟩ := List.mem_map.mp hsplit
    rw [nestedValue, hbelow below.1 _ String.toList_ofList]
  rw [lookup_of_missing (hbelow rest.toList _ (toList_path top rest)), toList_path, splits_append,
    List.findSome?_append, hlonger, Option.none_or, List.findSome?_cons, List.findSome?_map]
  cases nestedValue entries top.toList rest.toList <;> rfl

/-- Storing an object puts what its members lead to in front of what is found below it without. -/
theorem lookup_put_object {entries : OrderedMap Value} {top : String}
    (hfree : ∀ key ∈ entries.keys, Within top key → key = top) (members : List (String × Value))
    (rest : String) : lookup (entries.put top (.object members)) (top ++ "/" ++ rest) =
      (resolve (.object members) rest.toList).or
        (lookup (entries.erase top) (top ++ "/" ++ rest)) := by
  have hnone (others : OrderedMap Value)
      (hothers : ∀ key, top ≠ key → others.get? key = entries.get? key) (key : String)
      (hwithin : Within top key) (hne : key ≠ top) : others.get? key = none := by
    rw [hothers key hne.symm, OrderedMap.get?_eq_none_iff]
    exact fun hmem => hne (hfree key hmem hwithin)
  have hput := hnone (entries.put top (.object members)) fun key hne => by
    rw [OrderedMap.get?_put, if_neg hne]
  have herase := hnone (entries.erase top) fun key hne => by
    rw [OrderedMap.get?_erase, if_neg hne]
  have hstored : nestedValue (entries.put top (.object members)) top.toList rest.toList =
      resolve (.object members) rest.toList := by simp [nestedValue]
  have herased : nestedValue (entries.erase top) top.toList rest.toList = none := by
    simp [nestedValue]
  -- the parts of `top` are other paths, and their entries are the same in both
  have hfronts : ∀ split ∈ splits top.toList,
      nestedValue (entries.put top (.object members)) split.1 (split.2 ++ '/' :: rest.toList) =
        nestedValue (entries.erase top) split.1 (split.2 ++ '/' :: rest.toList) := by
    rintro ⟨front, back⟩ hsplit
    have hne : top ≠ String.ofList front := by
      rintro rfl
      simpa using congrArg List.length (mem_splits.mp hsplit)
    simp [nestedValue, hne]
  rw [lookup_below hput, lookup_below herase, hstored, herased, Option.none_or,
    findSome?_congr hfronts]

namespace Context

/-- A nested context and the rest of the context that holds it share what is found below. -/
theorem get?_put_toValue {outer : Context} {top : String}
    (hfree : ∀ key ∈ outer.entries.keys, Within top key → key = top) (inner : Context)
    (path : String) : (outer.put top inner.toValue).get? (top ++ "/" ++ path) =
      (resolve inner.toValue path.toList).or
        ((outer.remove top).get? (top ++ "/" ++ path)) := by
  have hlookup : lookup (outer.put top inner.toValue).entries (top ++ "/" ++ path) = _ :=
    lookup_put_object hfree inner.entries.toList path
  rw [get?_eq, hlookup, Option.or_assoc, get?_eq (outer.remove top)]
  rfl

/-- A segment is read at its own path in the nested context. -/
theorem resolve_toValue {segment : List Char} (h : '/' ∉ segment) (context : Context) :
    resolve context.toValue segment =
      context.entries.get? (String.ofList (Json.Pointer.unescape segment)) :=
  Json.Pointer.resolve_last h _

def escaped (path : String) : String := String.ofList (escape path.toList)

/-- An entry of a nested context is found below the path where the context is stored exactly if its
path denotes the value there, or if it denotes nothing and what lies around gives the same value. It
is found under a path that is one segment without marks, and under every path written as one. -/
theorem nested_entry_found_iff (outer inner : Context) {top path : String} {value : Value}
    (hfree : ∀ key ∈ outer.entries.keys, Within top key → key = top)
    (hentry : inner.entries.get? path = some value) :
    let holding := outer.put top inner.toValue
    let below := top ++ "/" ++ path
    (holding.get? below = some value ↔ Denotes inner.toValue path.toList value ∨
      (∀ found, ¬ Denotes inner.toValue path.toList found) ∧
        (outer.remove top).get? below = some value) ∧
    ('/' ∉ path.toList → ¬ ['~', '0'] <:+: path.toList → ¬ ['~', '1'] <:+: path.toList →
      holding.get? below = some value) ∧
    holding.get? (top ++ "/" ++ escaped path) = some value := by
  intro holding below
  have hread (text : String) (h : resolve inner.toValue text.toList = some value) :
      holding.get? (top ++ "/" ++ text) = some value := by
    rw [get?_put_toValue hfree, h]
    rfl
  refine ⟨?_, fun hslash htilde hmark => hread path ?_, hread _ ?_⟩
  · rw [get?_put_toValue hfree, Option.or_eq_some_iff]
    simp only [Json.Pointer.resolve_eq_some_iff, Json.Pointer.resolve_eq_none_iff]
    rfl
  · rw [resolve_toValue hslash, Json.Pointer.unescape_eq_self hmark htilde, String.ofList_toList,
      hentry]
  · rw [escaped, String.toList_ofList, resolve_toValue (Json.Pointer.slash_not_mem_escape _),
      Json.Pointer.unescape_escape, String.ofList_toList, hentry]

def invoice : Context :=
  ((named "invoice").put "sum/net" (.ofInt 40)).put "tax~1rate" (.ofInt 7)
    |>.put "tax/rate" (.ofInt 19) |>.put "due" (.ofInt 47)

def invoiced : Context := (named "order").put "invoice" invoice.toValue

/-- One entry of the nested invoice is not found, another one is taken for a third. -/
theorem nested_entries_misread :
    invoice.entries.get? "sum/net" = some (.ofInt 40) ∧
      invoiced.get? "invoice/sum/net" = none ∧
      invoice.entries.get? "tax~1rate" = some (.ofInt 7) ∧
      invoiced.get? "invoice/tax~1rate" = some (.ofInt 19) :=
  ⟨rfl, rfl, rfl, rfl⟩

theorem nested_entry_found_iff_invoice :
    (∀ key ∈ (named "order").entries.keys, Within "invoice" key → key = "invoice") ∧
      invoice.entries.get? "due" = some (.ofInt 47) ∧
      invoiced.get? "invoice/due" = some (.ofInt 47) ∧
      invoice.entries.get? "sum/net" = some (.ofInt 40) ∧
      ¬ Denotes invoice.toValue "sum/net".toList (.ofInt 40) ∧
      invoiced.get? "invoice/sum~1net" = some (.ofInt 40) := by
  have hfree : ∀ key ∈ (named "order").entries.keys, Within "invoice" key → key = "invoice" := by
    decide
  have hdue : invoice.entries.get? "due" = some (.ofInt 47) := rfl
  have hnet : invoice.entries.get? "sum/net" = some (.ofInt 40) := rfl
  obtain ⟨-, hplain, -⟩ := nested_entry_found_iff (named "order") invoice hfree hdue
  obtain ⟨hiff, -, hescaped⟩ := nested_entry_found_iff (named "order") invoice hfree hnet
  refine ⟨hfree, hdue, hplain (by decide) (by decide) (by decide), hnet, fun h => ?_, hescaped⟩
  have hfound := hiff.mpr (.inl h)
  cases hfound

end Context
end ServiceShell
