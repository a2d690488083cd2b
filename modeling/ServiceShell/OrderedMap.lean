/-!
Maps from texts that keep their keys in order of first insertion. The list functions serve nested
objects, which are plain lists; `OrderedMap` adds that no key occurs twice.
-/
namespace ServiceShell

namespace Pairs
variable {α : Type}

def get? (pairs : List (String × α)) (key : String) : Option α :=
  match pairs with
  | [] => none
  | (k, v) :: rest => if k = key then some v else get? rest key

/-- A known key keeps its place and takes the new value, a new key goes last. -/
def put (pairs : List (String × α)) (key : String) (value : α) : List (String × α) :=
  match pairs with
  | [] => [(key, value)]
  | (k, v) :: rest => if k = key then (key, value) :: rest else (k, v) :: put rest key value

def erase (pairs : List (String × α)) (key : String) : List (String × α) :=
  pairs.filter (fun pair => pair.1 ≠ key)

def keys (pairs : List (String × α)) : List String :=
  pairs.map Prod.fst

theorem keys_put (pairs : List (String × α)) (key : String) (value : α) :
    keys (put pairs key value) = if key ∈ keys pairs then keys pairs else keys pairs ++ [key] := by
  induction pairs with
  | nil => simp [put, keys]
  | cons pair rest ih =>
    obtain ⟨k, v⟩ := pair
    by_cases h : k = key
    · simp [put, keys, h]
    · have h' : ¬ key = k := fun e => h e.symm
      simp only [keys, put, h, if_false, List.map_cons, List.mem_cons, h', false_or] at ih ⊢
      rw [ih]
      by_cases hk : key ∈ List.map Prod.fst rest <;> simp [hk]

theorem nodup_put {pairs : List (String × α)} (h : (keys pairs).Nodup) (key : String) (value : α) :
    (keys (put pairs key value)).Nodup := by
  rw [keys_put]
  split
  · exact h
  · rename_i hk
    exact List.nodup_append.mpr ⟨h, by simp, by simp; exact fun a ha e => hk (e ▸ ha)⟩

theorem nodup_erase {pairs : List (String × α)} (h : (keys pairs).Nodup) (key : String) :
    (keys (erase pairs key)).Nodup :=
  List.Sublist.nodup (List.Sublist.map Prod.fst List.filter_sublist) h

theorem get?_put (pairs : List (String × α)) (key other : String) (value : α) :
    get? (put pairs key value) other = if key = other then some value else get? pairs other := by
  induction pairs with
  | nil => simp [put, get?]
  | cons pair rest ih =>
    obtain ⟨k, v⟩ := pair
    by_cases h : k = key
    · subst h
      by_cases ho : k = other <;> simp [put, get?, ho]
    · by_cases ho : k = other
      · subst ho
        have hk : ¬ key = k := fun e => h e.symm
        simp [put, get?, h, hk]
      · simp [put, get?, h, ho, ih]

theorem get?_erase (pairs : List (String × α)) (key other : String) :
    get? (erase pairs key) other = if key = other then none else get? pairs other := by
  induction pairs with
  | nil => simp [erase, get?]
  | cons pair rest ih =>
    obtain ⟨k, v⟩ := pair
    simp only [erase] at ih ⊢
    by_cases h : k = key
    · subst h
      by_cases ho : k = other
      · simp [ho] at ih ⊢; exact ih
      · simp [get?, ho] at ih ⊢; exact ih
    · by_cases ho : k = other
      · subst ho
        have hk : ¬ key = k := fun e => h e.symm
        simp [get?, h, hk]
      · simp [get?, h, ho] at ih ⊢; exact ih

end Pairs

structure OrderedMap (α : Type) where
  toList : List (String × α)
  nodup : (Pairs.keys toList).Nodup
deriving DecidableEq

namespace OrderedMap
variable {α : Type}

def empty : OrderedMap α := ⟨[], List.nodup_nil⟩

instance : Inhabited (OrderedMap α) := ⟨empty⟩

def get? (map : OrderedMap α) (key : String) : Option α :=
  Pairs.get? map.toList key

def put (map : OrderedMap α) (key : String) (value : α) : OrderedMap α :=
  ⟨Pairs.put map.toList key value, Pairs.nodup_put map.nodup key value⟩

def erase (map : OrderedMap α) (key : String) : OrderedMap α :=
  ⟨Pairs.erase map.toList key, Pairs.nodup_erase map.nodup key⟩

def keys (map : OrderedMap α) : List String :=
  Pairs.keys map.toList

def size (map : OrderedMap α) : Nat :=
  map.toList.length

def isEmpty (map : OrderedMap α) : Bool :=
  map.toList.isEmpty

def putAll (map : OrderedMap α) (pairs : List (String × α)) : OrderedMap α :=
  pairs.foldl (fun map pair => map.put pair.1 pair.2) map

/-- Keeps the first place and the last value of a key that occurs twice. -/
def ofList (pairs : List (String × α)) : OrderedMap α :=
  empty.putAll pairs

def overlay (lower upper : OrderedMap α) : OrderedMap α :=
  lower.putAll upper.toList

@[simp] theorem get?_put (map : OrderedMap α) (key other : String) (value : α) :
    (map.put key value).get? other = if key = other then some value else map.get? other :=
  Pairs.get?_put ..

@[simp] theorem get?_erase (map : OrderedMap α) (key other : String) :
    (map.erase key).get? other = if key = other then none else map.get? other :=
  Pairs.get?_erase ..

@[simp] theorem keys_put (map : OrderedMap α) (key : String) (value : α) :
    (map.put key value).keys = if key ∈ map.keys then map.keys else map.keys ++ [key] :=
  Pairs.keys_put ..

end OrderedMap
end ServiceShell
