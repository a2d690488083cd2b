import ServiceShell.Proofs.UuidText
import ServiceShell.Proofs.WrittenRecord
import ServiceShell.Stored.Context
import ServiceShell.Stored.Control
/-!
What stored contexts and control data are loaded as. Main statement: a context is loaded as it was
exactly if its stored form stays below the nesting limit and each of its floats is read back where
it was written; control data is always loaded as it was, but for the operations of its signatures.
-/
namespace ServiceShell

open Json (Value Reader Fields Document)

theorem RequestPath.reader_reread (path : RequestPath) (n : Nat) :
    RequestPath.reader (n + 1) (.reread path.stored) = some path ↔ 2 ≤ n := by
  obtain ⟨outPaths, returnPath⟩ := path
  refine (Fields.read_bind rfl (by simp [Pairs.keys]) 1 True ?_).trans (by simp)
  intro m fields _ hfields
  have hreturn : Reader.nullable .string (m + 1) (.reread (.ofOption .string returnPath)) =
      some returnPath := by
    cases returnPath <;> rfl
  simp [hfields.required, hfields.optional, Pairs.get?, hreturn, Option.bind_eq_some_iff,
    Reader.list_strings]

theorem RequestPath.depth_stored (path : RequestPath) : path.stored.depth = 2 := by
  have hout : ∀ texts : List String, Value.itemsDepth (texts.map .string) = 0 := fun texts =>
    Nat.le_zero.mp <| (Value.itemsDepth_le ..).mpr <| by simp [Value.depth]
  obtain ⟨outPaths, returnPath⟩ := path
  cases returnPath <;> simp [stored, Value.depth, Value.membersDepth, Value.ofStrings,
    Value.ofOption, hout]

theorem RequestPath.mem_parts_stored {path : RequestPath} {part : Value}
    (h : part ∈ path.stored.parts) :
    part = path.stored ∨ part = .ofStrings path.outPaths ∨ part = .null ∨
      ∃ text, part = .string text := by
  obtain h | ⟨member, hmember, h⟩ := (Value.mem_parts_object ..).mp h
  · exact .inl h
  simp only [List.mem_cons, List.not_mem_nil, or_false] at hmember
  obtain rfl | rfl := hmember
  · obtain h | ⟨item, hitem, h⟩ := (Value.mem_parts_array ..).mp h
    · exact .inr (.inl h)
    obtain ⟨text, -, rfl⟩ := List.mem_map.mp hitem
    exact .inr (.inr (.inr ⟨text, List.mem_singleton.mp h⟩))
  · cases hreturn : path.returnPath with
    | none =>
      rw [hreturn] at h
      exact .inr (.inr (.inl (List.mem_singleton.mp h)))
    | some text =>
      rw [hreturn] at h
      exact .inr (.inr (.inr ⟨text, List.mem_singleton.mp h⟩))

theorem RequestPath.rereads_stored (path : RequestPath) : path.stored.Rereads := by
  intro x hx
  obtain ⟨part, hpart, hfloat⟩ := List.mem_filterMap.mp hx
  obtain rfl | rfl | rfl | ⟨s, rfl⟩ := mem_parts_stored hpart <;> cases hfloat

theorem RequestPath.distinct_stored (path : RequestPath) : path.stored.Distinct := by
  intro part hpart
  obtain rfl | rfl | rfl | ⟨s, rfl⟩ := mem_parts_stored hpart <;>
    simp [stored, Value.ofStrings, Value.ownKeys, Pairs.keys]

namespace Context

theorem induct {P : Context → Prop}
    (h : ∀ context, (∀ outer ∈ context.scope, P outer) → P context) : ∀ context, P context
  | ⟨_, _, none, _, _⟩ => h _ (by simp)
  | ⟨_, _, some outer, _, _⟩ => h _ (by simpa using induct h outer)

def members (context : Context) : List (String × Value) :=
  [("name", .string context.name), ("entries", .object context.entries.toList)] ++
    (context.scope.map fun outer => ("scope", outer.stored)).toList ++
    (context.request.map fun path => ("request_path", path.stored)).toList ++
    [("finalized", .bool context.finalized)]

theorem stored_eq (context : Context) : context.stored = .object context.members := by
  obtain ⟨name, entries, scope, request, finalized⟩ := context
  cases scope <;> rfl

theorem nodup_members (context : Context) : (Pairs.keys context.members).Nodup := by
  unfold members
  cases context.scope <;> cases context.request <;> simp [Pairs.keys]

theorem forall_members (context : Context) (P : Value → Prop) :
    (∀ member ∈ context.members, P member.2) ↔
      P (.string context.name) ∧ P (.object context.entries.toList) ∧
        (∀ outer ∈ context.scope, P outer.stored) ∧ (∀ path ∈ context.request, P path.stored) ∧
        P (.bool context.finalized) := by
  unfold members
  cases context.scope <;> cases context.request <;> simp

/-- Whether an object in a stored context has a key twice is up to its entries and its scopes. -/
theorem distinct_stored (context : Context) : context.stored.Distinct ↔
    Value.Distinct (.object context.entries.toList) ∧
      ∀ outer ∈ context.scope, outer.stored.Distinct := by
  have hpath : ∀ path ∈ context.request, path.stored.Distinct := fun path _ => path.distinct_stored
  have hname : Value.Distinct (.string context.name) := by
    simp [Value.Distinct, Value.parts, Value.ownKeys]
  have hlast : Value.Distinct (.bool context.finalized) := by
    simp [Value.Distinct, Value.parts, Value.ownKeys]
  rw [stored_eq, Value.distinct_object, and_iff_right context.nodup_members, forall_members]
  constructor
  · rintro ⟨-, hentries, hscope, -, -⟩
    exact ⟨hentries, hscope⟩
  · rintro ⟨hentries, hscope⟩
    exact ⟨hname, hentries, hscope, hpath, hlast⟩

theorem get?_members (context : Context) :
    Pairs.get? context.members "name" = some (.string context.name) ∧
      Pairs.get? context.members "entries" = some (.object context.entries.toList) ∧
      Pairs.get? context.members "scope" = context.scope.map stored ∧
      Pairs.get? context.members "request_path" = context.request.map RequestPath.stored ∧
      Pairs.get? context.members "finalized" = some (.bool context.finalized) := by
  unfold members
  cases context.scope <;> cases context.request <;> simp [Pairs.get?]

theorem assembled {context : Context} {name : Option String} {entries : Option (OrderedMap Value)}
    {scope : Option (Option Context)} {request : Option (Option RequestPath)}
    {finalized : Option Bool} :
    (do return ({ name := ← name, entries := ← entries, scope := ← scope, request := ← request,
                  finalized := ← finalized } : Context)) = some context ↔
      name = some context.name ∧ entries = some context.entries ∧ scope = some context.scope ∧
        request = some context.request ∧ finalized = some context.finalized := by
  obtain ⟨_, _, _, _, _⟩ := context
  cases name <;> cases entries <;> cases scope <;> cases request <;> cases finalized <;> simp

/-- Where no object in it has a key twice, a stored context is loaded as it was exactly if its
stored form is not nested too deeply and all its floats are read back. -/
theorem reader_reread {context : Context} (hdistinct : context.stored.Distinct) (n : Nat) :
    Context.reader (n + 1) (.reread context.stored) = some context ↔
      context.stored.depth ≤ n ∧ context.stored.Rereads := by
  induction context using induct generalizing n with
  | h context ih =>
    obtain ⟨hname, hentries, hscope, hrequest, hfinalized⟩ := context.get?_members
    rw [stored_eq] at hdistinct ⊢
    obtain ⟨-, hdistinct⟩ := (Value.distinct_object _).mp hdistinct
    obtain ⟨-, hdentries, hdscope, -, -⟩ := (context.forall_members Value.Distinct).mp hdistinct
    rw [Value.depth]
    refine Fields.read_bind rfl context.nodup_members _ _ ?_
    rintro m fields rfl hfields
    rw [Value.membersDepth_le, Value.rereads_object, ← forall₂_and,
      context.forall_members fun value => value.depth ≤ m ∧ value.Rereads]
    have hmap := (Reader.map_reread context.entries m).trans
      (Document.toValue?_reread hdentries m)
    have houter := hfields.defaulted_nullable (by simp) hscope (by simp [stored_eq, Value.isObject])
      fun _ nested => reader (m + 1) nested
    have hpath := hfields.defaulted_nullable (by simp) hrequest
      (by simp [RequestPath.stored, Value.isObject]) RequestPath.reader
    have hscopes : (∀ outer ∈ context.scope, reader (m + 1) (.reread outer.stored) = some outer) ↔
        ∀ outer ∈ context.scope, outer.stored.depth ≤ m ∧ outer.stored.Rereads :=
      forall₂_congr fun outer houter => ih outer houter (hdscope outer houter) m
    have hpaths : (∀ path ∈ context.request, RequestPath.reader (m + 1) (.reread path.stored) =
        some path) ↔ ∀ path ∈ context.request, path.stored.depth ≤ m ∧ path.stored.Rereads :=
      forall₂_congr fun path _ => by
        rw [path.reader_reread, path.depth_stored, and_iff_left path.rereads_stored]
    rw [← hmap, ← hscopes, ← hpaths, ← houter, ← hpath]
    have hfirst : fields.required "name" .string = some context.name := by
      rw [hfields.required (by simp), hname]
      rfl
    have hlast : fields.defaulted "finalized" false .bool = some context.finalized := by
      rw [hfields.defaulted (by simp), hfinalized]
      rfl
    have hmiddle : fields.required "entries" (.map .value) =
        Reader.map .value (m + 1) (.reread (.object context.entries.toList)) := by
      rw [hfields.required (by simp), hentries]
      rfl
    refine assembled.trans ?_
    simp [hfirst, hlast, hmiddle, Value.depth, Value.Rereads, Value.floats, Value.parts,
      Value.asFloat?]

end Context

def Signature.withoutTarget (signature : Signature) : Signature :=
  { signature with target := none }

def Fidelity.withoutTargets (fidelity : Fidelity) : Fidelity :=
  { fidelity with selects := fidelity.selects.map Signature.withoutTarget }

def Fidelities.withoutTargets (fidelities : Fidelities) : Fidelities :=
  { fidelities with alternatives := fidelities.alternatives.map Fidelity.withoutTargets }

def Control.withoutTargets (control : Control) : Control :=
  control.mapFidelities Fidelities.withoutTargets

theorem ProviderName.reader_reread (provider : ProviderName) (n : Nat) :
    ProviderName.reader (n + 2) (.reread provider.stored) = some provider := by
  cases provider <;> rfl

theorem Access.reader_reread (access : Access) (n : Nat) :
    Access.reader n (.reread (.string access.tag)) = some access := by
  cases access <;> rfl

theorem Role.reader_reread (role : Role) (n : Nat) :
    Role.reader n (.reread (.string role.tag)) = some role := by
  cases role <;> rfl

theorem State.reader_reread (state : State) (n : Nat) :
    State.reader n (.reread (.string state.tag)) = some state := by
  cases state <;> rfl

theorem Signature.reader_reread (signature : Signature) (n : Nat) :
    Signature.reader (n + 3) (.reread signature.stored) = some signature.withoutTarget := by
  obtain ⟨fields, hread, hfields⟩ := Fields.read_reread
    ["service_type", "selector", "provider_name", "access", "role"]
    (rfl : signature.stored = .object _) (by simp [Pairs.keys]) (n + 1)
  have haccess : Reader.nullable Access.reader (n + 2) (.reread
      (.ofOption (fun access => .string access.tag) signature.access)) = some signature.access := by
    cases signature.access with
    | none => rfl
    | some access => cases access <;> rfl
  have htype : Reader.string (n + 2) (.reread (.string signature.type)) = some signature.type := rfl
  have hselector : Reader.string (n + 2) (.reread (.string signature.selector)) =
    some signature.selector := rfl
  simp only [Signature.reader, hread, Option.bind_eq_bind, Option.bind_some, List.mem_cons,
    List.not_mem_nil, or_self, or_false, or_true, hfields.required, hfields.defaulted, Pairs.get?,
    String.reduceEq, ↓reduceIte, htype, hselector, ProviderName.reader_reread, haccess,
    Role.reader_reread]
  rfl

theorem Fidelity.reader_reread (fidelity : Fidelity) (n : Nat) :
    Fidelity.reader (n + 5) (.reread fidelity.stored) = some fidelity.withoutTargets := by
  obtain ⟨fields, hread, hfields⟩ := Fields.read_reread ["name", "selects"]
    (rfl : fidelity.stored = .object _) (by simp [Pairs.keys]) (n + 3)
  have hselects : Reader.list Signature.reader (n + 4) (.reread
      (.array (fidelity.selects.map Signature.stored))) =
        some (fidelity.selects.map Signature.withoutTarget) :=
    Reader.list_reread fun signature _ => signature.reader_reread n
  have hname : Reader.string (n + 4) (.reread (.string fidelity.name)) = some fidelity.name := rfl
  simp only [Fidelity.reader, hread, Option.bind_eq_bind, Option.bind_some, List.mem_cons,
    List.not_mem_nil, or_self, or_false, or_true, hfields.required, Pairs.get?, String.reduceEq,
    ↓reduceIte, hname, hselects]
  rfl

theorem Fidelities.reader_reread (fidelities : Fidelities)
    (hselected : ∀ n ∈ fidelities.selected, n < UInt64.size) (n : Nat) :
    Fidelities.reader (n + 7) (.reread fidelities.stored) = some fidelities.withoutTargets := by
  obtain ⟨fields, hread, hfields⟩ := Fields.read_reread ["fidelities", "selected"]
    (rfl : fidelities.stored = .object _) (by simp [Pairs.keys]) (n + 5)
  have halternatives : Reader.list Fidelity.reader (n + 6) (.reread
      (.array (fidelities.alternatives.map Fidelity.stored))) =
        some (fidelities.alternatives.map Fidelity.withoutTargets) :=
    Reader.list_reread fun fidelity _ => fidelity.reader_reread n
  have hselection : Reader.nullable .nat (n + 6) (.reread
      (.ofOption .ofNat fidelities.selected)) = some fidelities.selected := by
    cases hsome : fidelities.selected with
    | none => rfl
    | some position =>
      change some <$> Reader.nat (n + 6) (.reread (.ofNat position)) = _
      rw [Reader.nat_reread (hselected position hsome)]
      rfl
  simp only [Fidelities.reader, hread, Option.bind_eq_bind, Option.bind_some, List.mem_cons,
    List.not_mem_nil, or_self, or_false, or_true, hfields.required, hfields.optional, Pairs.get?,
    String.reduceEq, ↓reduceIte, halternatives, hselection]
  rfl

theorem Control.reader_reread (control : Control)
    (hselected : ∀ n ∈ control.fidelities.selected, n < UInt64.size) (n : Nat) :
    Control.reader (n + 8) (.reread control.stored) = some control.withoutTargets := by
  obtain ⟨fields, hread, hfields⟩ := Fields.read_reread
    ["exec_state", "access", "fidelities", "trace", "mutex_id", "initializable"]
    (rfl : control.stored = .object _) (by simp [Pairs.keys]) (n + 6)
  have htrace := (Reader.list_strings control.trace (n + 6)).mpr (by omega)
  have hholder : Reader.nullable Uuid.reader (n + 7) (.reread
      (.ofOption (fun id => .string id.text) control.lockHolder)) = some control.lockHolder := by
    cases control.lockHolder with
    | none => rfl
    | some id =>
      simp [Value.ofOption, Document.reread, Reader.nullable, Uuid.reader, Reader.string,
        id.ofText?_text]
  have hinitializable : Reader.bool (n + 7) (.reread (.bool control.initializable)) =
    some control.initializable := rfl
  simp only [Control.reader, hread, Option.bind_eq_bind, Option.bind_some, List.mem_cons,
    List.not_mem_nil, or_self, or_false, or_true, hfields.required, hfields.optional, Pairs.get?,
    String.reduceEq, ↓reduceIte, State.reader_reread, Access.reader_reread,
    control.fidelities.reader_reread hselected n, htrace, hholder, hinitializable]
  rfl

theorem Context.ofText_stored {context : Context} (hdistinct : context.stored.Distinct) :
    Context.reader.ofText context.stored.text = some context ↔
      context.stored.depth < Document.nestingLimit ∧ context.stored.Rereads := by
  unfold Reader.ofText
  rw [Document.ofText_text, Option.bind_some, Nat.lt_iff_add_one_le]
  exact (Context.reader_reread hdistinct 127).trans
    (and_congr_left' (Nat.add_le_add_iff_right (n := 1)).symm)

/-- A context is loaded as it was stored, with its entries in the same order, exactly if its stored
form stays below the nesting limit and each float in it is read back where it was written. That no
object in it has a key twice is part of what an object is. Control data is loaded as it was stored,
but for the operations of its signatures. -/
theorem loaded_as_stored :
    (∀ context : Context, context.stored.Distinct →
      (Context.reader.ofText context.stored.text = some context ↔
        context.stored.depth < Document.nestingLimit ∧ context.stored.Rereads)) ∧
      ∀ control : Control, (∀ n ∈ control.fidelities.selected, n < UInt64.size) →
        Control.reader.ofText control.stored.text = some control.withoutTargets := by
  refine ⟨fun context hdistinct => context.ofText_stored hdistinct, fun control hselected => ?_⟩
  unfold Reader.ofText
  rw [Document.ofText_text]
  exact control.reader_reread hselected 120

def Context.half : Json.Double := ⟨false, 4602678819172646912, by decide⟩

def Context.ordered : Context :=
  { name := "order"
    entries := .ofList
      [("lines", .array [.object [("part", .string "bolt\n"), ("count", .ofNat 3)]]),
        ("share", .number (.float half))]
    scope := some ((named "desk").withScope ((named "shop").put "open" (.bool true)))
    request := some ⟨["lines", "share"], some "result"⟩
    finalized := true }

def Control.chosen : Control :=
  { state := .suspended
    access := .pull
    fidelities := ⟨[⟨"here", [.object "pack" "Packer" fun _ context => (context, none)]⟩,
      ⟨"there", [(Signature.net "pack" "Packer").withProvider (.named "north")]⟩], some 1⟩
    trace := ["suspended"]
    lockHolder := some (.ofNat 7)
    initializable := false }

theorem loaded_as_stored_ordered :
    (Context.ordered.stored.Distinct ∧
      Context.reader.ofText Context.ordered.stored.text = some Context.ordered) ∧
    (∀ n ∈ Control.chosen.fidelities.selected, n < UInt64.size) ∧
      Control.reader.ofText Control.chosen.stored.text = some Control.chosen.withoutTargets := by
  have hdistinct : Context.ordered.stored.Distinct := by decide +kernel
  have hselected : ∀ n ∈ Control.chosen.fidelities.selected, n < UInt64.size := by decide
  exact ⟨⟨hdistinct, (loaded_as_stored.1 _ hdistinct).mpr (by decide +kernel)⟩, hselected,
    loaded_as_stored.2 _ hselected⟩

namespace Context

def within : Nat → Context
  | 0 => named "order"
  | n + 1 => (named "order").withScope (within n)

theorem depth_within (n : Nat) : (within n).stored.depth = n + 2 := by
  induction n with
  | zero => rfl
  | succ n ih =>
    rw [within, stored_eq, Value.depth]
    simp [members, withScope, named, OrderedMap.empty, Value.membersDepth, Value.depth, ih]

theorem distinct_within (n : Nat) : (within n).stored.Distinct := by
  have hempty : Value.Distinct (.object []) := (Value.distinct_object []).mpr (by simp [Pairs.keys])
  induction n with
  | zero => exact (distinct_stored _).mpr ⟨hempty, by simp [within, named]⟩
  | succ n ih => exact (distinct_stored _).mpr ⟨hempty, by simpa [within, withScope] using ih⟩

def price : Json.Double := ⟨false, 4963678596152762776, by decide⟩

def priced : Context := (named "order").put "price" (.number (.float price))

/-- A context in 126 scopes is not loaded, and the price is read back as the float below it. -/
theorem not_loaded_as_stored :
    (within 126).stored.Distinct ∧
      Context.reader.ofText (within 126).stored.text ≠ some (within 126) ∧
    priced.stored.Distinct ∧ Context.reader.ofText priced.stored.text ≠ some priced := by
  have hpriced : priced.stored.Distinct := by decide +kernel
  refine ⟨distinct_within 126, fun h => ?_, hpriced, fun h => ?_⟩
  · have hdepth := ((ofText_stored (distinct_within 126)).mp h).1
    rw [depth_within] at hdepth
    exact absurd hdepth (by decide)
  · exact absurd ((ofText_stored hpriced).mp h).2 (by decide +kernel)

end Context
end ServiceShell
