import ServiceShell.OrderedMap
/-!
One ordered map laid over another: what is found at a key, and in which order the keys come.
-/
namespace ServiceShell

namespace Pairs
variable {α : Type}

theorem get?_eq_none_iff (pairs : List (String × α)) (key : String) :
    get? pairs key = none ↔ key ∉ keys pairs := by
  induction pairs with
  | nil => simp [get?, keys]
  | cons pair rest ih =>
    obtain ⟨k, v⟩ := pair
    by_cases h : k = key
    · simp [get?, keys, h]
    · have h' : ¬ key = k := fun e => h e.symm
      simpa [get?, keys, h, h'] using ih

/-- A list of pairs without repeated keys is known by its keys and what is found at them. -/
theorem eq_of_keys_of_get? {pairs others : List (String × α)} (hnodup : (keys pairs).Nodup)
    (hkeys : keys pairs = keys others) (hget : ∀ key, get? pairs key = get? others key) :
    pairs = others := by
  induction pairs generalizing others with
  | nil => cases others with
    | nil => rfl
    | cons => simp [keys] at hkeys
  | cons pair rest ih =>
    obtain ⟨k, v⟩ := pair
    cases others with
    | nil => simp [keys] at hkeys
    | cons other others =>
      obtain ⟨k', v'⟩ := other
      obtain ⟨rfl, hrest⟩ : k = k' ∧ keys rest = keys others := by simpa [keys] using hkeys
      obtain ⟨hk, hnodup⟩ : k ∉ keys rest ∧ (keys rest).Nodup := by simpa [keys] using hnodup
      have hv : v = v' := by simpa [get?] using hget k
      have htail : ∀ key, get? rest key = get? others key := by
        intro key
        by_cases h : k = key
        · rw [(get?_eq_none_iff rest key).mpr (h ▸ hk),
            (get?_eq_none_iff others key).mpr (h ▸ hrest ▸ hk)]
        · simpa [get?, h] using hget key
      rw [hv, ih hnodup hrest htail]

theorem put_new {pairs : List (String × α)} {key : String} (h : key ∉ keys pairs) (value : α) :
    put pairs key value = pairs ++ [(key, value)] := by
  induction pairs with
  | nil => rfl
  | cons pair pairs ih =>
    obtain ⟨k, v⟩ := pair
    simp only [keys, List.map_cons, List.mem_cons, not_or] at h ih
    rw [put, if_neg fun hk => h.1 hk.symm, ih h.2, List.cons_append]

theorem keys_map {β : Type} (f : String × α → β) (pairs : List (String × α)) :
    keys (pairs.map fun pair => (pair.1, f pair)) = keys pairs := by
  unfold keys
  rw [List.map_map]
  rfl

theorem get?_map {β : Type} (f : String × α → β) (pairs : List (String × α)) (key : String) :
    get? (pairs.map fun pair => (pair.1, f pair)) key =
      (get? pairs key).map fun value => f (key, value) := by
  induction pairs with
  | nil => rfl
  | cons pair pairs ih =>
    by_cases h : pair.1 = key
    · simp [get?, ← h]
    · simpa [get?, h] using ih

theorem keys_filter (kept : String → Bool) (pairs : List (String × α)) :
    keys (pairs.filter fun pair => kept pair.1) = (keys pairs).filter kept := by
  unfold keys
  rw [List.filter_map]
  rfl

theorem get?_filter (kept : String → Bool) (pairs : List (String × α)) (key : String) :
    get? (pairs.filter fun pair => kept pair.1) key =
      if kept key then get? pairs key else none := by
  induction pairs with
  | nil => simp [get?]
  | cons pair pairs ih =>
    by_cases hkept : kept pair.1 <;> by_cases h : pair.1 = key <;> simp_all [get?]

theorem get?_append (pairs others : List (String × α)) (key : String) :
    get? (pairs ++ others) key = (get? pairs key).or (get? others key) := by
  induction pairs with
  | nil => rfl
  | cons pair pairs ih => by_cases h : pair.1 = key <;> simp [get?, h, ih]

end Pairs

namespace OrderedMap
variable {α : Type}

@[simp] theorem get?_empty (key : String) : (empty : OrderedMap α).get? key = none := rfl

theorem get?_eq_none_iff (map : OrderedMap α) (key : String) :
    map.get? key = none ↔ key ∉ map.keys :=
  Pairs.get?_eq_none_iff ..

theorem mem_keys_iff (map : OrderedMap α) (key : String) :
    key ∈ map.keys ↔ (map.get? key).isSome := by
  rw [Option.isSome_iff_ne_none, ne_eq, get?_eq_none_iff, Decidable.not_not]

theorem ext_get? {map other : OrderedMap α} (hkeys : map.keys = other.keys)
    (hget : ∀ key, map.get? key = other.get? key) : map = other := by
  obtain ⟨pairs, hnodup⟩ := map
  obtain ⟨others, _⟩ := other
  obtain rfl : pairs = others := Pairs.eq_of_keys_of_get? hnodup hkeys hget
  rfl

theorem get?_putAll (map : OrderedMap α) {pairs : List (String × α)}
    (hnodup : (Pairs.keys pairs).Nodup) (key : String) :
    (map.putAll pairs).get? key = (Pairs.get? pairs key).or (map.get? key) := by
  induction pairs generalizing map with
  | nil => rfl
  | cons pair rest ih =>
    obtain ⟨k, v⟩ := pair
    obtain ⟨hk, hnodup⟩ : k ∉ Pairs.keys rest ∧ (Pairs.keys rest).Nodup := by
      simpa [Pairs.keys] using hnodup
    have hput : (map.putAll ((k, v) :: rest)).get? key = ((map.put k v).putAll rest).get? key := rfl
    rw [hput, ih _ hnodup, get?_put]
    by_cases h : k = key
    · rw [(Pairs.get?_eq_none_iff rest key).mpr (h ▸ hk)]
      simp [Pairs.get?, h]
    · simp [Pairs.get?, h]

/-- The upper map wins, and the lower one answers for the rest. -/
@[simp] theorem get?_overlay (lower upper : OrderedMap α) (key : String) :
    (lower.overlay upper).get? key = (upper.get? key).or (lower.get? key) :=
  get?_putAll lower upper.nodup key

theorem keys_putAll (map : OrderedMap α) {pairs : List (String × α)}
    (hnodup : (Pairs.keys pairs).Nodup) :
    (map.putAll pairs).keys = map.keys ++ (Pairs.keys pairs).filter (· ∉ map.keys) := by
  induction pairs generalizing map with
  | nil => simp [putAll, Pairs.keys]
  | cons pair rest ih =>
    obtain ⟨k, v⟩ := pair
    obtain ⟨hk, hnodup⟩ : k ∉ Pairs.keys rest ∧ (Pairs.keys rest).Nodup := by
      simpa [Pairs.keys] using hnodup
    have hput : (map.putAll ((k, v) :: rest)).keys = ((map.put k v).putAll rest).keys := rfl
    have hcons : Pairs.keys ((k, v) :: rest) = k :: Pairs.keys rest := rfl
    rw [hput, ih _ hnodup, keys_put, hcons]
    by_cases h : k ∈ map.keys
    · simp [h]
    · have hrest : (Pairs.keys rest).filter (· ∉ map.keys ++ [k]) =
          (Pairs.keys rest).filter (· ∉ map.keys) := by
        refine List.filter_congr fun other hother => ?_
        have hne : other ≠ k := fun e => hk (e ▸ hother)
        simp [hne]
      rw [if_neg h, hrest]
      simp [h]

theorem keys_overlay (lower upper : OrderedMap α) :
    (lower.overlay upper).keys = lower.keys ++ upper.keys.filter (· ∉ lower.keys) :=
  keys_putAll lower upper.nodup

/-- A map that has grown out of another one swallows it. -/
theorem overlay_eq_of_keys {lower upper : OrderedMap α} {more : List String}
    (h : upper.keys = lower.keys ++ more) : lower.overlay upper = upper := by
  refine ext_get? ?_ fun key => ?_
  · have hnodup : (lower.keys ++ more).Nodup := h ▸ upper.nodup
    have hlower : lower.keys.filter (· ∉ lower.keys) = [] := by simp
    have hmore : more.filter (· ∉ lower.keys) = more :=
      List.filter_eq_self.mpr fun key hkey => by
        simpa using fun hl => (List.nodup_append.mp hnodup).2.2 key hl key hkey rfl
    rw [keys_overlay, h, List.filter_append, hlower, hmore, List.nil_append]
  · rw [get?_overlay]
    cases hu : upper.get? key with
    | some value => rfl
    | none =>
      have hkey : key ∉ lower.keys ++ more := h ▸ (get?_eq_none_iff upper key).mp hu
      rw [(get?_eq_none_iff lower key).mpr fun hl => hkey (List.mem_append_left more hl)]
      rfl

@[simp] theorem empty_overlay (map : OrderedMap α) : empty.overlay map = map :=
  overlay_eq_of_keys rfl

theorem overlay_eq_left_iff {lower upper : OrderedMap α} : lower.overlay upper = lower ↔
    ∀ key value, upper.get? key = some value → lower.get? key = some value := by
  constructor
  · intro h key value hvalue
    rw [← h, get?_overlay, hvalue, Option.some_or]
  · intro h
    have hkeys : ∀ key ∈ upper.keys, key ∈ lower.keys := fun key hkey => by
      obtain ⟨value, hvalue⟩ := Option.isSome_iff_exists.mp ((mem_keys_iff upper key).mp hkey)
      exact (mem_keys_iff lower key).mpr (Option.isSome_of_eq_some (h key value hvalue))
    refine ext_get? ?_ fun key => ?_
    · simpa [keys_overlay] using hkeys
    · rw [get?_overlay]
      cases hvalue : upper.get? key with
      | none => rfl
      | some value => exact (h key value hvalue).symm

theorem get?_overlay_eq_upper_iff {lower upper : OrderedMap α} :
    (∀ key, (lower.overlay upper).get? key = upper.get? key) ↔ lower.keys ⊆ upper.keys := by
  simp only [get?_overlay]
  constructor
  · intro h key hkey
    rw [mem_keys_iff] at hkey ⊢
    rw [← h key]
    simp [hkey]
  · intro h key
    cases hupper : upper.get? key with
    | some value => rfl
    | none =>
      have hlower : key ∉ lower.keys := fun hkey => (get?_eq_none_iff upper key).mp hupper (h hkey)
      exact (get?_eq_none_iff lower key).mpr hlower

theorem overlay_put (lower upper : OrderedMap α) (key : String) (value : α) :
    (lower.overlay upper).put key value = lower.overlay (upper.put key value) := by
  refine ext_get? ?_ fun other => ?_
  · by_cases hlower : key ∈ lower.keys <;> by_cases hupper : key ∈ upper.keys <;>
      simp [keys_overlay, hlower, hupper]
  · by_cases h : key = other <;> simp [h]

/-- What is put over two maps may be put over the upper one first. -/
theorem overlay_putAll (lower upper : OrderedMap α) (pairs : List (String × α)) :
    (lower.overlay upper).putAll pairs = lower.overlay (upper.putAll pairs) := by
  induction pairs generalizing upper with
  | nil => rfl
  | cons pair rest ih => exact (congrArg (putAll · rest) (overlay_put ..)).trans (ih _)

theorem overlay_assoc (lower middle upper : OrderedMap α) :
    (lower.overlay middle).overlay upper = lower.overlay (middle.overlay upper) :=
  overlay_putAll lower middle upper.toList

theorem overlay_self (map : OrderedMap α) : map.overlay map = map :=
  overlay_eq_left_iff.mpr fun _ _ h => h

/-- A known key keeps its place and takes the value of the upper map, where that has one; the new
keys come behind, in the order of the upper map. -/
theorem toList_overlay (lower upper : OrderedMap α) :
    (lower.overlay upper).toList =
      lower.toList.map (fun pair => (pair.1, (upper.get? pair.1).getD pair.2)) ++
        upper.toList.filter (·.1 ∉ lower.keys) := by
  have hnodup : (Pairs.keys (lower.overlay upper).toList).Nodup := (lower.overlay upper).nodup
  refine Pairs.eq_of_keys_of_get? hnodup ?_ fun key => ?_
  · have hkept := Pairs.keys_map (fun pair => (upper.get? pair.1).getD pair.2) lower.toList
    have hnew := Pairs.keys_filter (· ∉ lower.keys) upper.toList
    calc Pairs.keys (lower.overlay upper).toList
        = lower.keys ++ upper.keys.filter (· ∉ lower.keys) := keys_overlay lower upper
      _ = Pairs.keys (lower.toList.map fun pair => (pair.1, (upper.get? pair.1).getD pair.2)) ++
            Pairs.keys (upper.toList.filter (·.1 ∉ lower.keys)) := by
          rw [hkept, hnew]
          rfl
      _ = _ := List.map_append.symm
  · have hkept := Pairs.get?_map (fun pair => (upper.get? pair.1).getD pair.2) lower.toList key
    have hnew := Pairs.get?_filter (· ∉ lower.keys) upper.toList key
    calc Pairs.get? (lower.overlay upper).toList key
        = (upper.get? key).or (lower.get? key) := get?_overlay lower upper key
      _ = ((lower.get? key).map fun value => (upper.get? key).getD value).or
            (if key ∉ lower.keys then upper.get? key else none) := by
          cases hlower : lower.get? key with
          | none => simp [(get?_eq_none_iff lower key).mp hlower]
          | some value => cases upper.get? key <;> rfl
      _ = _ := by
          rw [Pairs.get?_append, hkept, hnew]
          simp [OrderedMap.get?]

theorem ofList_toList (map : OrderedMap α) : ofList map.toList = map :=
  empty_overlay map

theorem toList_ofList {pairs : List (String × α)} (hnodup : (Pairs.keys pairs).Nodup) :
    (ofList pairs).toList = pairs :=
  congrArg toList (ofList_toList ⟨pairs, hnodup⟩)

end OrderedMap
end ServiceShell
