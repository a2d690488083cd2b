import ServiceShell.Proofs.OrderedMap
import ServiceShell.Proofs.WrittenText
/-!
What a written value is read as. Main statements: the text of a value is read as the document in
which every number stands as it is reread; and where no object has a key twice, that document
denotes the value again exactly if the value is not nested too deeply and every float in it is read
back.
-/
namespace ServiceShell.Json

namespace Document

/-- The tokens of a document are taken for that document, whatever stands around it. -/
def Builds (document : Document) : Prop :=
  ∀ stack mayClose rest,
    build stack (.value mayClose) (document.tokens ++ rest) = build stack (.after document) rest

theorem build_itemTokens {items : List Document} (hne : items ≠ [])
    (h : ∀ item ∈ items, Builds item) (done : List Document) (stack : List Frame) (mayClose : Bool)
    (rest : List Token) :
    build (.array done :: stack) (.value mayClose) (itemTokens items ++ .closeArray :: rest) =
      build stack (.after (.array (done.reverse ++ items))) rest := by
  induction items generalizing done mayClose with
  | nil => exact absurd rfl hne
  | cons item items ih =>
    obtain ⟨hitem, hitems⟩ := List.forall_mem_cons.mp h
    cases items with
    | nil =>
      rw [itemTokens, hitem, build]
      simp
    | cons next items =>
      have htokens : itemTokens (item :: next :: items) ++ .closeArray :: rest =
          item.tokens ++ .comma :: (itemTokens (next :: items) ++ .closeArray :: rest) := by
        simp [itemTokens]
      rw [htokens, hitem, build, ih (by simp) hitems]
      simp

theorem build_memberTokens {members : List (Option String × Document)} (hne : members ≠ [])
    (h : ∀ member ∈ members, Builds member.2) (done : List (Option String × Document))
    (stack : List Frame) (mayClose : Bool) (rest : List Token) :
    build stack (.key done mayClose) (memberTokens members ++ .closeObject :: rest) =
      build stack (.after (.object (done.reverse ++ members))) rest := by
  induction members generalizing done mayClose with
  | nil => exact absurd rfl hne
  | cons member members ih =>
    obtain ⟨hmember, hmembers⟩ := List.forall_mem_cons.mp h
    obtain ⟨key, value⟩ := member
    cases members with
    | nil =>
      rw [memberTokens, List.cons_append, build, List.cons_append, build, hmember, build]
      simp
    | cons next members =>
      have htokens : memberTokens ((key, value) :: next :: members) ++ .closeObject :: rest =
          .string key :: .colon :: (value.tokens ++
            .comma :: (memberTokens (next :: members) ++ .closeObject :: rest)) := by
        simp [memberTokens]
      rw [htokens, build, build, hmember, build, ih (by simp) hmembers]
      simp

theorem builds_array {items : List Document} (h : ∀ item ∈ items, Builds item) :
    Builds (.array items) := by
  intro stack mayClose rest
  rw [tokens, List.cons_append, List.append_assoc, build]
  cases items with
  | nil => rfl
  | cons item items => exact build_itemTokens (by simp) h [] stack true rest

theorem builds_object {members : List (Option String × Document)}
    (h : ∀ member ∈ members, Builds member.2) : Builds (.object members) := by
  intro stack mayClose rest
  rw [tokens, List.cons_append, List.append_assoc, build]
  cases members with
  | nil => rfl
  | cons member members => exact build_memberTokens (by simp) h [] stack true rest

theorem rereadItems_eq_map (items : List Value) : rereadItems items = items.map reread := by
  induction items with
  | nil => rfl
  | cons item items ih => rw [rereadItems, ih, List.map_cons]

theorem rereadMembers_eq_map (members : List (String × Value)) :
    rereadMembers members = (members.map fun member => (member.1, reread member.2)).map
      fun member => (some member.1, member.2) := by
  induction members with
  | nil => rfl
  | cons member members ih => rw [rereadMembers, ih, List.map_cons, List.map_cons]

theorem builds_reread (value : Value) : Builds (reread value) := by
  induction value using Value.induct with
  | null => exact fun _ _ _ => rfl
  | bool b => exact fun _ _ _ => rfl
  | number n => exact fun _ _ _ => rfl
  | string s => exact fun _ _ _ => rfl
  | array items ih =>
    refine builds_array ?_
    rw [rereadItems_eq_map]
    exact List.forall_mem_map.mpr ih
  | object members ih =>
    refine builds_object ?_
    rw [rereadMembers_eq_map]
    exact List.forall_mem_map.mpr (List.forall_mem_map.mpr ih)

/-- The text of a value is read as the document in which every number stands as it is reread. -/
theorem ofText_text (value : Value) : ofText value.text = some (reread value) := by
  have hbuild := builds_reread value [] false []
  rw [List.append_nil] at hbuild
  unfold ofText Value.text
  rw [Token.ofText_of_scans (Token.scans_write value), Option.bind_some, hbuild]
  rfl

end Document

namespace Value

mutual
def depth : Value → Nat
  | .array items => itemsDepth items + 1
  | .object members => membersDepth members + 1
  | _ => 0

def itemsDepth : List Value → Nat
  | [] => 0
  | item :: rest => max (depth item) (itemsDepth rest)

def membersDepth : List (String × Value) → Nat
  | [] => 0
  | (_, value) :: rest => max (depth value) (membersDepth rest)
end

mutual
def parts : Value → List Value
  | .array items => .array items :: itemParts items
  | .object members => .object members :: memberParts members
  | value => [value]

def itemParts : List Value → List Value
  | [] => []
  | item :: rest => parts item ++ itemParts rest

def memberParts : List (String × Value) → List Value
  | [] => []
  | (_, value) :: rest => parts value ++ memberParts rest
end

theorem itemsDepth_le (items : List Value) (n : Nat) :
    itemsDepth items ≤ n ↔ ∀ item ∈ items, item.depth ≤ n := by
  induction items with
  | nil => simp [itemsDepth]
  | cons item items ih => rw [itemsDepth, max_le_iff, ih, List.forall_mem_cons]

theorem membersDepth_le (members : List (String × Value)) (n : Nat) :
    membersDepth members ≤ n ↔ ∀ member ∈ members, member.2.depth ≤ n := by
  induction members with
  | nil => simp [membersDepth]
  | cons member members ih => rw [membersDepth, max_le_iff, ih, List.forall_mem_cons]

theorem mem_itemParts (part : Value) (items : List Value) :
    part ∈ itemParts items ↔ ∃ item ∈ items, part ∈ item.parts := by
  induction items with
  | nil => simp [itemParts]
  | cons item items ih => simp [itemParts, ih]

theorem mem_memberParts (part : Value) (members : List (String × Value)) :
    part ∈ memberParts members ↔ ∃ member ∈ members, part ∈ member.2.parts := by
  induction members with
  | nil => simp [memberParts]
  | cons member members ih =>
    obtain ⟨key, value⟩ := member
    simp [memberParts, ih]

def ownKeys : Value → List String
  | .object members => Pairs.keys members
  | _ => []

def asFloat? : Value → Option Double
  | .number (.float x) => some x
  | _ => none

def floats (value : Value) : List Double :=
  value.parts.filterMap asFloat?

def Distinct (value : Value) : Prop :=
  ∀ part ∈ value.parts, part.ownKeys.Nodup

def Rereads (value : Value) : Prop :=
  ∀ x ∈ value.floats, (Number.float x).reread = some (.float x)

instance (value : Value) : Decidable value.Distinct :=
  inferInstanceAs (Decidable (∀ part ∈ value.parts, part.ownKeys.Nodup))

instance (value : Value) : Decidable value.Rereads :=
  inferInstanceAs (Decidable (∀ x ∈ value.floats, (Number.float x).reread = some (.float x)))

theorem mem_parts_array (part : Value) (items : List Value) :
    part ∈ (array items).parts ↔ part = .array items ∨ ∃ item ∈ items, part ∈ item.parts := by
  rw [parts, List.mem_cons, mem_itemParts]

theorem mem_parts_object (part : Value) (members : List (String × Value)) :
    part ∈ (object members).parts ↔
      part = .object members ∨ ∃ member ∈ members, part ∈ member.2.parts := by
  rw [parts, List.mem_cons, mem_memberParts]

theorem distinct_array (items : List Value) :
    Distinct (.array items) ↔ ∀ item ∈ items, Distinct item := by
  simp only [Distinct, mem_parts_array]
  constructor
  · exact fun h item hitem part hpart => h part (.inr ⟨item, hitem, hpart⟩)
  · rintro h part (rfl | ⟨item, hitem, hpart⟩)
    · exact List.nodup_nil
    · exact h item hitem part hpart

theorem distinct_object (members : List (String × Value)) :
    Distinct (.object members) ↔
      (Pairs.keys members).Nodup ∧ ∀ member ∈ members, Distinct member.2 := by
  simp only [Distinct, mem_parts_object]
  constructor
  · exact fun h => ⟨h _ (.inl rfl),
      fun member hmember part hpart => h part (.inr ⟨member, hmember, hpart⟩)⟩
  · rintro ⟨hkeys, h⟩ part (rfl | ⟨member, hmember, hpart⟩)
    · exact hkeys
    · exact h member hmember part hpart

theorem rereads_array (items : List Value) :
    Rereads (.array items) ↔ ∀ item ∈ items, Rereads item := by
  simp only [Rereads, floats, List.mem_filterMap, mem_parts_array]
  constructor
  · exact fun h item hitem x ⟨part, hpart, hx⟩ => h x ⟨part, .inr ⟨item, hitem, hpart⟩, hx⟩
  · rintro h x ⟨part, rfl | ⟨item, hitem, hpart⟩, hx⟩
    · cases hx
    · exact h item hitem x ⟨part, hpart, hx⟩

theorem rereads_object (members : List (String × Value)) :
    Rereads (.object members) ↔ ∀ member ∈ members, Rereads member.2 := by
  simp only [Rereads, floats, List.mem_filterMap, mem_parts_object]
  constructor
  · exact fun h member hmember x ⟨part, hpart, hx⟩ =>
      h x ⟨part, .inr ⟨member, hmember, hpart⟩, hx⟩
  · rintro h x ⟨part, rfl | ⟨member, hmember, hpart⟩, hx⟩
    · cases hx
    · exact h member hmember x ⟨part, hpart, hx⟩

theorem rereads_number (n : Number) : Rereads (.number n) ↔ n.reread = some n := by
  cases n with
  | int i => simp [Rereads, floats, parts, asFloat?, Number.reread_int]
  | float x => simp [Rereads, floats, parts, asFloat?]

end Value

namespace Document

theorem mapM_eq_some_map {α β : Type} {f : α → Option β} {g : α → β} {list : List α} :
    list.mapM f = some (list.map g) ↔ ∀ a ∈ list, f a = some (g a) := by
  induction list with
  | nil => simp
  | cons a list ih =>
    rw [List.forall_mem_cons, ← ih, List.mapM_cons]
    cases f a <;> cases list.mapM f <;> simp

theorem mapM_eq_some_self {α : Type} {f : α → Option α} {list : List α} :
    list.mapM f = some list ↔ ∀ a ∈ list, f a = some a := by
  have h : list.mapM f = some (list.map id) ↔ _ := mapM_eq_some_map
  rwa [List.map_id] at h

theorem itemsToValues?_eq_mapM (allowance : Nat) (items : List Document) :
    itemsToValues? allowance items = items.mapM (toValue? allowance) := by
  induction items with
  | nil => rfl
  | cons item items ih => rw [itemsToValues?, ih, List.mapM_cons]

theorem membersToValues?_eq_mapM (allowance : Nat) {members : List (String × Document)}
    (done : List (String × Value)) (hnodup : (Pairs.keys done ++ Pairs.keys members).Nodup) :
    membersToValues? allowance done (members.map fun member => (some member.1, member.2)) =
      (done ++ ·) <$> members.mapM fun member =>
        (member.1, ·) <$> toValue? allowance member.2 := by
  induction members generalizing done with
  | nil => simp [membersToValues?]
  | cons member members ih =>
    obtain ⟨key, document⟩ := member
    have hnew : key ∉ Pairs.keys done := fun h =>
      (List.nodup_append.mp hnodup).2.2 key h key List.mem_cons_self rfl
    rw [List.map_cons, membersToValues?, List.mapM_cons]
    cases hvalue : toValue? allowance document with
    | none => simp
    | some value =>
      have hkeys : (Pairs.keys (done ++ [(key, value)]) ++ Pairs.keys members).Nodup := by
        simpa [Pairs.keys] using hnodup
      simp only [Option.bind_eq_bind, Option.bind_some, Pairs.put_new hnew, ih _ hkeys]
      cases members.mapM fun member => (member.1, ·) <$> toValue? allowance member.2 <;>
        simp

theorem enter?_bind {α : Type} {read : Nat → Option α} {a : α} {depth n : Nat} {p : Prop}
    (h : ∀ m, read (m + 1) = some a ↔ depth ≤ m ∧ p) :
    (enter? (n + 1)).bind read = some a ↔ depth + 1 ≤ n ∧ p := by
  cases n with
  | zero => simp [enter?]
  | succ m => simp [enter?, h]

/-- Where no object has a key twice, what is read for a value denotes it again exactly if the value
is not nested too deeply and all its floats are read back. -/
theorem toValue?_reread {value : Value} (hdistinct : value.Distinct) (n : Nat) :
    toValue? (n + 1) (reread value) = some value ↔ value.depth ≤ n ∧ value.Rereads := by
  induction value using Value.induct generalizing n with
  | null =>
    simp [reread, toValue?, Value.depth, Value.Rereads, Value.floats, Value.parts, Value.asFloat?]
  | bool b =>
    simp [reread, toValue?, Value.depth, Value.Rereads, Value.floats, Value.parts, Value.asFloat?]
  | number m => simp [reread, toValue?, Value.depth, Value.rereads_number]
  | string s =>
    simp [reread, toValue?, Value.depth, Value.Rereads, Value.floats, Value.parts, Value.asFloat?]
  | array items ih =>
    rw [Value.distinct_array] at hdistinct
    have hitems : ∀ m, Value.array <$> itemsToValues? (m + 1) (rereadItems items) =
        some (.array items) ↔ Value.itemsDepth items ≤ m ∧ Value.Rereads (.array items) := by
      intro m
      rw [rereadItems_eq_map, itemsToValues?_eq_mapM, List.mapM_map, Value.itemsDepth_le,
        Value.rereads_array, ← forall₂_and]
      simp only [Option.map_eq_map, Option.map_eq_some_iff, Value.array.injEq, exists_eq_right,
        mapM_eq_some_self]
      exact forall₂_congr fun item hitem => ih item hitem (hdistinct item hitem) m
    rw [reread, toValue?, Value.depth]
    exact enter?_bind hitems
  | object members ih =>
    obtain ⟨hkeys, hdistinct⟩ := (Value.distinct_object members).mp hdistinct
    have hmembers : ∀ m, Value.object <$> membersToValues? (m + 1) [] (rereadMembers members) =
        some (.object members) ↔
          Value.membersDepth members ≤ m ∧ Value.Rereads (.object members) := by
      intro m
      rw [rereadMembers_eq_map, membersToValues?_eq_mapM, List.mapM_map, Value.membersDepth_le,
        Value.rereads_object, ← forall₂_and]
      · simp only [Option.map_eq_map, List.nil_append, Option.map_eq_some_iff, Value.object.injEq,
          exists_eq_right, mapM_eq_some_self]
        refine forall₂_congr fun member hmember => ?_
        rw [← ih member hmember (hdistinct member hmember) m]
        simp [Prod.ext_iff]
      · rwa [Pairs.keys_map]
    rw [reread, toValue?, Value.depth]
    exact enter?_bind hmembers

end Document
end ServiceShell.Json
