import ServiceShell.Json.Record
import ServiceShell.Proofs.WrittenValue
/-!
What the readers of lists, maps and records make of written values. A record is written as an object
that has no key twice, so each of its fields is found under its name or is missing.
-/
namespace ServiceShell

theorem Pairs.keys_of_mapM {α β : Type} {f : α → Option β} {pairs : List (String × α)}
    {found : List (String × β)}
    (h : (pairs.mapM fun pair => (pair.1, ·) <$> f pair.2) = some found) :
    Pairs.keys found = Pairs.keys pairs := by
  induction pairs generalizing found with
  | nil =>
    cases h
    rfl
  | cons pair pairs ih =>
    simp only [List.mapM_cons, Option.bind_eq_bind, Option.bind_eq_some_iff, Option.map_eq_map,
      Option.map_eq_some_iff, Option.pure_def, Option.some.injEq] at h
    obtain ⟨_, ⟨value, -, rfl⟩, rest, hrest, rfl⟩ := h
    exact congrArg (pair.1 :: ·) (ih hrest)

namespace Json

namespace Fields
variable {α : Type}

/-- Each member of an object that has no key twice fills its own slot. -/
theorem ofMembers_distinct {members : List (String × Document)}
    (hkeys : (Pairs.keys members).Nodup) {slots : List (String × Slot)}
    (hslots : ∀ key ∈ Pairs.keys members, ∀ slot ∈ Pairs.get? slots key, slot = .missing) :
    ∃ found, ofMembers slots (members.map fun member => (some member.1, member.2)) = some found ∧
      ∀ name, Pairs.get? found name = (Pairs.get? slots name).map fun slot =>
        match Pairs.get? members name with
        | some document => .given document
        | none => slot := by
  induction members generalizing slots with
  | nil => exact ⟨slots, rfl, fun name => by simp [Pairs.get?]⟩
  | cons member members ih =>
    obtain ⟨key, document⟩ := member
    obtain ⟨hnew, hkeys⟩ : key ∉ Pairs.keys members ∧ (Pairs.keys members).Nodup := by
      simpa [Pairs.keys] using hkeys
    have hnone : Pairs.get? members key = none := (Pairs.get?_eq_none_iff ..).mpr hnew
    cases hslot : Pairs.get? slots key with
    | none =>
      obtain ⟨found, hfound, hget⟩ := ih hkeys fun k hk => hslots k (List.mem_cons_of_mem _ hk)
      refine ⟨found, by simp [ofMembers, hslot, hfound], fun name => ?_⟩
      rw [hget]
      by_cases h : key = name
      · subst h
        simp [hslot]
      · simp [Pairs.get?, h]
    | some slot =>
      obtain rfl := hslots key List.mem_cons_self slot hslot
      have hput : ∀ k ∈ Pairs.keys members,
          ∀ slot ∈ Pairs.get? (Pairs.put slots key (.given document)) k, slot = .missing := by
        intro k hk
        have hne : key ≠ k := fun h => hnew (h ▸ hk)
        rw [Pairs.get?_put, if_neg hne]
        exact hslots k (List.mem_cons_of_mem _ hk)
      obtain ⟨found, hfound, hget⟩ := ih hkeys hput
      refine ⟨found, by simp [ofMembers, hslot, hfound], fun name => ?_⟩
      rw [hget, Pairs.get?_put]
      by_cases h : key = name
      · subst h
        simp [hslot, hnone, Pairs.get?]
      · simp [Pairs.get?, h]

structure Written (fields : Fields) (allowance : Nat) (names : List String)
    (members : List (String × Value)) : Prop where
  allowance_eq : fields.allowance = allowance
  slot_eq : ∀ name ∈ names, Pairs.get? fields.slots name =
    some (match Pairs.get? members name with
      | some value => .given (Document.reread value)
      | none => .missing)

theorem get?_missing (names : List String) (name : String) :
    Pairs.get? (names.map (·, Slot.missing)) name =
      if name ∈ names then some .missing else none := by
  induction names with
  | nil => rfl
  | cons other names ih =>
    rw [List.map_cons, Pairs.get?, ih]
    by_cases h : other = name
    · simp [h]
    · simp [h, Ne.symm h]

/-- A record is read from what was written as an object that has no key twice. -/
theorem read_reread (names : List String) {value : Value} {members : List (String × Value)}
    (hvalue : value = .object members) (hkeys : (Pairs.keys members).Nodup) (n : Nat) :
    ∃ fields, Fields.read names (n + 2) (.reread value) = some fields ∧
      fields.Written (n + 1) names members := by
  rw [← Pairs.keys_map (Document.reread ·.2)] at hkeys
  have hempty : ∀ key ∈ Pairs.keys (members.map fun member => (member.1, Document.reread member.2)),
      ∀ slot ∈ Pairs.get? (names.map (·, Slot.missing)) key, slot = .missing := by
    intro key _ slot hslot
    rw [get?_missing] at hslot
    split at hslot <;> cases hslot
    rfl
  obtain ⟨found, hfound, hget⟩ := ofMembers_distinct hkeys hempty
  refine ⟨⟨n + 1, found⟩, ?_, rfl, fun name hname => ?_⟩
  · rw [hvalue, Document.reread, Document.rereadMembers_eq_map, Fields.read]
    simp only [Document.enter?, Option.bind_eq_bind, Option.bind_some, hfound]
    rfl
  · rw [hget, get?_missing, if_pos hname, Pairs.get?_map]
    cases Pairs.get? members name <;> rfl

/-- Reading a record takes one level of the allowance. -/
theorem read_bind {names : List String} {value : Value} {members : List (String × Value)} {a : α}
    {body : Fields → Option α} (hvalue : value = .object members)
    (hkeys : (Pairs.keys members).Nodup) (depth : Nat) (p : Prop)
    {n : Nat} (h : ∀ m fields, n = m + 1 → fields.Written (m + 1) names members →
      (body fields = some a ↔ depth ≤ m ∧ p)) :
    (Fields.read names (n + 1) (.reread value)).bind body = some a ↔ depth + 1 ≤ n ∧ p := by
  cases n with
  | zero =>
    have hnone : Fields.read names 1 (.reread value) = none := by
      rw [hvalue]
      rfl
    simp [hnone]
  | succ m =>
    obtain ⟨fields, hread, hwritten⟩ := read_reread names hvalue hkeys m
    rw [hread, Option.bind_some, h m fields rfl hwritten, Nat.add_le_add_iff_right]

namespace Written
variable {fields : Fields} {allowance : Nat} {names : List String} {name : String}
  {members : List (String × Value)}

theorem required (h : fields.Written allowance names members) (hname : name ∈ names)
    (reader : Reader α) : fields.required name reader =
      (Pairs.get? members name).bind fun value => reader allowance (.reread value) := by
  rw [Fields.required, h.slot_eq name hname, h.allowance_eq]
  cases Pairs.get? members name <;> rfl

theorem optional (h : fields.Written allowance names members) (hname : name ∈ names)
    (reader : Reader α) : fields.optional name reader =
      match Pairs.get? members name with
      | some value => reader.nullable allowance (.reread value)
      | none => some none := by
  rw [Fields.optional, h.slot_eq name hname, h.allowance_eq]
  cases Pairs.get? members name <;> rfl

theorem defaulted (h : fields.Written allowance names members) (hname : name ∈ names)
    (default : α) (reader : Reader α) : fields.defaulted name default reader =
      match Pairs.get? members name with
      | some value => reader allowance (.reread value)
      | none => some default := by
  rw [Fields.defaulted, h.slot_eq name hname, h.allowance_eq]
  cases Pairs.get? members name <;> rfl

theorem defaulted_nullable {β : Type} (h : fields.Written allowance names members)
    (hname : name ∈ names) {write : β → Value} {held : Option β}
    (hfound : Pairs.get? members name = held.map write)
    (hwrite : ∀ b ∈ held, (write b).isObject) (reader : Reader β) :
    fields.defaulted name none reader.nullable = some held ↔
      ∀ b ∈ held, reader allowance (.reread (write b)) = some b := by
  rw [h.defaulted hname, hfound]
  cases held with
  | none => simp
  | some b =>
    have hobject := hwrite b rfl
    cases hvalue : write b <;> rw [hvalue] at hobject <;> cases hobject
    simp [hvalue, Reader.nullable, Document.reread]

end Written
end Fields

namespace Reader
variable {α β : Type}

theorem list_reread {item : Reader β} {n : Nat} {write : α → Value} {read : α → β} {xs : List α}
    (h : ∀ x ∈ xs, item (n + 1) (.reread (write x)) = some (read x)) :
    Reader.list item (n + 2) (.reread (.array (xs.map write))) = some (xs.map read) := by
  rw [Document.reread, Document.rereadItems_eq_map, List.map_map, Reader.list]
  simp only [Document.enter?, Option.bind_eq_bind, Option.bind_some, List.mapM_map]
  exact Document.mapM_eq_some_map.mpr h

theorem nat_reread {k : Nat} (hk : k < UInt64.size) (n : Nat) :
    Reader.nat n (.reread (.ofNat k)) = some k := by
  have hvalue : (Integer.ofNat k).value = k := by
    unfold Integer.ofNat
    rw [dif_pos hk]
  rw [Value.ofNat, Document.reread, Number.reread_int]
  simp [Reader.nat, Number.asNat?, hvalue]

theorem list_strings (texts : List String) (n : Nat) :
    Reader.list .string (n + 1) (.reread (.ofStrings texts)) = some texts ↔ 1 ≤ n := by
  cases n with
  | zero => simp [Value.ofStrings, Document.reread, Reader.list, Document.enter?]
  | succ n =>
    have h : Reader.list .string (n + 2) (.reread (.array (texts.map .string))) =
        some (texts.map id) := list_reread fun _ _ => rfl
    rw [List.map_id] at h
    simp [Value.ofStrings, h]

theorem map_written (item : Reader α) (members : List (String × Document))
    (n : Nat) :
    Reader.map item (n + 2) (.object (members.map fun member => (some member.1, member.2))) =
      OrderedMap.ofList <$> members.mapM fun member =>
        (member.1, ·) <$> item (n + 1) member.2 := by
  rw [Reader.map]
  simp only [Document.enter?, Option.bind_eq_bind, Option.bind_some, List.mapM_map]
  rw [Option.map_eq_map, Option.map_eq_bind]
  congr 2
  funext member
  cases h : item (n + 1) member.2 <;> simp [h]

theorem map_reread (map : OrderedMap Value) (n : Nat) :
    Reader.map .value (n + 1) (.reread (.object map.toList)) = some map ↔
      Document.toValue? (n + 1) (.reread (.object map.toList)) = some (.object map.toList) := by
  cases n with
  | zero => simp [Document.reread, Reader.map, Document.toValue?, Document.enter?]
  | succ m =>
    have hnodup := map.nodup
    rw [← Pairs.keys_map (Document.reread ·.2)] at hnodup
    rw [Document.reread, Document.toValue?, Document.rereadMembers_eq_map, map_written]
    simp only [Document.enter?, Option.bind_eq_bind, Option.bind_some]
    rw [Document.membersToValues?_eq_mapM (m + 1) [] hnodup]
    simp only [Option.map_eq_map, Option.map_eq_some_iff, List.nil_append, Value.object.injEq,
      exists_eq_right]
    constructor
    · rintro ⟨pairs, hpairs, hmap⟩
      have hkeys := Pairs.keys_of_mapM hpairs
      refine hpairs.trans (congrArg some ?_)
      rw [← hmap, OrderedMap.toList_ofList (hkeys ▸ hnodup)]
    · exact fun h => ⟨_, h, map.ofList_toList⟩

end Reader
end Json
end ServiceShell
