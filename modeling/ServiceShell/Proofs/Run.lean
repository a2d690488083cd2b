import ServiceShell.Run
/-!
What a computation of a shell is sure to give, in whatever world it starts: a condition on its value
and on the events that it leaves.
-/
namespace ServiceShell.Run
variable {σ α β : Type}

@[simp] theorem pure_apply (value : α) (world : World σ) :
    (Pure.pure value : Run σ α) world = ⟨value, world, []⟩ := rfl

@[simp] theorem bind_apply (x : Run σ α) (f : α → Run σ β) (world : World σ) :
    (x >>= f) world =
      ⟨(f (x world).value (x world).world).value, (f (x world).value (x world).world).world,
        (x world).events ++ (f (x world).value (x world).world).events⟩ := rfl

@[simp] theorem map_apply (f : α → β) (x : Run σ α) (world : World σ) :
    (f <$> x) world = ⟨f (x world).value, (x world).world, (x world).events⟩ := by
  rw [← bind_pure_comp, bind_apply]
  exact congrArg (Outcome.mk _ _) (List.append_nil _)

@[simp] theorem note_apply (n : Note) (world : World σ) :
    (note n : Run σ Unit) world = ⟨(), world, [.note n]⟩ := rfl

@[simp] theorem emit_apply (event : Event) (world : World σ) :
    (emit event : Run σ Unit) world = ⟨(), world, [event]⟩ := rfl

@[simp] theorem ask_apply (question : σ → α × σ) (event : α → Event) (world : World σ) :
    ask question event world = ⟨(question world.env).1,
      { world with env := (question world.env).2 }, [event (question world.env).1]⟩ := rfl

@[simp] theorem useCache_apply (clock : σ → Nat) (use : Nat → Cache → α × Cache)
    (world : World σ) :
    useCache clock use world = ⟨(use (clock world.env) world.cache).1,
      { world with cache := (use (clock world.env) world.cache).2 }, []⟩ := rfl

def Yields (x : Run σ α) (value : α) (events : List Event) : Prop :=
  ∃ world, (x world).value = value ∧ (x world).events = events

def Ensures (x : Run σ α) (post : α → List Event → Prop) : Prop :=
  ∀ world, post (x world).value (x world).events

theorem ensures_yields (x : Run σ α) : x.Ensures x.Yields := fun world => ⟨world, rfl, rfl⟩

namespace Ensures
variable {x : Run σ α} {f : α → Run σ β}

theorem of_yields {post : α → List Event → Prop} (h : x.Ensures post) {value : α}
    {events : List Event} (hyields : x.Yields value events) : post value events := by
  obtain ⟨world, rfl, rfl⟩ := hyields
  exact h world

theorem mono {post weaker : α → List Event → Prop} (h : x.Ensures post)
    (hw : ∀ value events, post value events → weaker value events) : x.Ensures weaker :=
  fun world => hw _ _ (h world)

theorem and {post other : α → List Event → Prop} (h : x.Ensures post) (ho : x.Ensures other) :
    x.Ensures fun value events => post value events ∧ other value events :=
  fun world => ⟨h world, ho world⟩

theorem of_forall {post : α → List Event → Prop} (h : ∀ value events, post value events) :
    x.Ensures post :=
  fun _ => h _ _

theorem pure {value : α} {post : α → List Event → Prop} (h : post value []) :
    (Pure.pure value : Run σ α).Ensures post :=
  fun _ => h

theorem bind {post : β → List Event → Prop}
    (h : x.Ensures fun value events => (f value).Ensures fun last later =>
      post last (events ++ later)) : (x >>= f).Ensures post :=
  fun world => h world (x world).world

theorem map {g : α → β} {post : β → List Event → Prop}
    (h : x.Ensures fun value events => post (g value) events) : (g <$> x).Ensures post := by
  rw [← bind_pure_comp]
  exact bind (h.mono fun value events hv => pure (by simpa using hv))

theorem emit {event : Event} {post : Unit → List Event → Prop} (h : post () [event]) :
    (Run.emit event : Run σ Unit).Ensures post :=
  fun _ => h

theorem note {n : Note} {post : Unit → List Event → Prop} (h : post () [.note n]) :
    (Run.note n : Run σ Unit).Ensures post :=
  fun _ => h

theorem noteAll {notes : List Note} {post : Unit → List Event → Prop}
    (h : post () (notes.map .note)) : (Run.noteAll notes : Run σ Unit).Ensures post :=
  fun _ => h

theorem ask {question : σ → α × σ} {event : α → Event} {post : α → List Event → Prop}
    (h : ∀ answer, post answer [event answer]) : (Run.ask question event).Ensures post :=
  fun _ => h _

theorem draw {source : σ → α × σ} {post : α → List Event → Prop} (h : ∀ value, post value []) :
    (Run.draw source).Ensures post :=
  fun _ => h _

theorem useCache {clock : σ → Nat} {use : Nat → Cache → α × Cache}
    {post : α → List Event → Prop} (h : ∀ value, post value []) :
    (Run.useCache clock use).Ensures post :=
  fun _ => h _

end Ensures

def Only (kind : Event → Prop) (x : Run σ α) : Prop :=
  x.Ensures fun _ events => ∀ event ∈ events, kind event

namespace Only
variable {kind other : Event → Prop} {x : Run σ α} {f : α → Run σ β}

theorem mono (h : x.Only kind) (hkind : ∀ event, kind event → other event) : x.Only other :=
  Ensures.mono h fun _ _ hall event hevent => hkind event (hall event hevent)

theorem of_yields (h : x.Only kind) {value : α} {events : List Event}
    (hyields : x.Yields value events) : ∀ event ∈ events, kind event :=
  Ensures.of_yields h hyields

theorem pure (value : α) : (Pure.pure value : Run σ α).Only kind := Ensures.pure (by simp)

theorem bind (h : x.Only kind) (hf : ∀ value, (f value).Only kind) : (x >>= f).Only kind :=
  Ensures.bind (Ensures.mono h fun value _ hevents => Ensures.mono (hf value) fun _ _ hlater =>
    List.forall_mem_append.mpr ⟨hevents, hlater⟩)

theorem map (h : x.Only kind) (g : α → β) : (g <$> x).Only kind := Ensures.map h

theorem emit {event : Event} (h : kind event) : (Run.emit event : Run σ Unit).Only kind :=
  Ensures.emit (List.forall_mem_singleton.mpr h)

theorem note {n : Note} (h : kind (.note n)) : (Run.note n : Run σ Unit).Only kind :=
  emit h

theorem noteAll {notes : List Note} (h : ∀ n ∈ notes, kind (.note n)) :
    (Run.noteAll notes : Run σ Unit).Only kind :=
  Ensures.noteAll (List.forall_mem_map.mpr h)

theorem ask {question : σ → α × σ} {event : α → Event} (h : ∀ answer, kind (event answer)) :
    (Run.ask question event).Only kind :=
  Ensures.ask fun answer => List.forall_mem_singleton.mpr (h answer)

theorem draw (source : σ → α × σ) : (Run.draw source).Only kind := Ensures.draw fun _ => by simp

end Only
end ServiceShell.Run
