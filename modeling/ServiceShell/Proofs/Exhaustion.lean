import ServiceShell.Proofs.Resolution
/-!
When a resolution gives up. Its sources are the cache, the location of the provider that the
signature names, and the discovery by the type of service. It answers the first handle of theirs
that can be used, except that a dead provider hides what the discovery by type would have given
where it was located by its name.
-/
namespace ServiceShell

def Source (σ : Type) : Type := σ → Option Handle × σ

namespace Source
variable {σ : Type} {first second : Source σ} {env : σ}

def nothing : Source σ := fun env => (none, env)

def orElse (first second : Source σ) : Source σ := fun env =>
  match first env with
  | (some handle, env) => (some handle, env)
  | (none, env) => second env

theorem orElse_of_isSome (h : (first env).1.isSome) : first.orElse second env = first env := by
  unfold orElse
  generalize first env = given at h ⊢
  obtain ⟨handle, after⟩ := given
  cases handle with
  | some handle => rfl
  | none => cases h

theorem orElse_of_none (h : (first env).1 = none) :
    first.orElse second env = second (first env).2 := by
  unfold orElse
  generalize first env = given at h ⊢
  obtain ⟨handle, after⟩ := given
  obtain rfl : handle = none := h
  rfl

theorem orElse_nothing (source : Source σ) : source.orElse nothing = source := by
  funext env
  cases h : (source env).1 with
  | some handle => exact orElse_of_isSome (Option.isSome_of_eq_some h)
  | none => exact (orElse_of_none h).trans (Prod.ext h.symm rfl)

end Source

namespace Collaborators
variable {σ : Type} (c : Collaborators σ)

def cached (signature : Signature) (cache : Cache) : Source σ := fun env =>
  ((cache.get (c.now env) signature.service).1.map .provider, env)

def located (signature : Signature) : Source σ := fun env =>
  match signature.provider with
  | .any => (none, env)
  | .named name => ((c.locate name signature env).1.toOption.join, (c.locate name signature env).2)

def found (signature : Signature) : Source σ := fun env =>
  ((c.find signature env).1.toOption.join, (c.find signature env).2)

def usable (source : Source σ) : Source σ := fun env =>
  match source env with
  | (some (.provider provider), env) =>
    (if (c.ping provider env).1.isOk then some (.provider provider) else none,
      (c.ping provider env).2)
  | given => given

def firstUsable : List (Source σ) → Source σ
  | [] => .nothing
  | source :: later => (c.usable source).orElse (firstUsable later)

def sources (signature : Signature) (cache : Cache) : List (Source σ) :=
  [c.cached signature cache, c.located signature, c.found signature]

/-- The cache has nothing of use, and neither has the location by name, although it gives a handle;
but the discovery by type, asked after it, would give one that can be used. -/
def PassesOver (signature : Signature) (world : World σ) : Prop :=
  let fromCache := c.usable (c.cached signature world.cache) world.env
  let byName := c.usable (c.located signature) fromCache.2
  fromCache.1 = none ∧ (c.located signature fromCache.2).1.isSome ∧ byName.1 = none ∧
    (c.usable (c.found signature) byName.2).1.isSome

theorem firstUsable_single (source : Source σ) : c.firstUsable [source] = c.usable source :=
  Source.orElse_nothing _

theorem usable_of_none {source : Source σ} {env : σ} (h : (source env).1 = none) :
    c.usable source env = source env := by
  unfold usable
  generalize source env = given at h ⊢
  obtain ⟨handle, after⟩ := given
  obtain rfl : handle = none := h
  rfl

theorem usable_congr {source other : Source σ} {env after : σ} (h : source env = other after) :
    c.usable source env = c.usable other after := by
  unfold usable
  rw [h]

/-- Two sources are as good as one of both, unless a handle of the first one cannot be used. -/
theorem usable_orElse {first second : Source σ} {env : σ}
    (h : (first env).1 = none ∨ (c.usable first env).1.isSome) :
    c.usable (first.orElse second) env = (c.usable first).orElse (c.usable second) env := by
  cases hfirst : (first env).1 with
  | none =>
    have hsame := c.usable_of_none hfirst
    rw [c.usable_congr (Source.orElse_of_none hfirst),
      Source.orElse_of_none (hsame ▸ hfirst), hsame]
  | some handle =>
    have hsome : (c.usable first env).1.isSome := h.resolve_left (by simp [hfirst])
    rw [c.usable_congr (Source.orElse_of_isSome (Option.isSome_of_eq_some hfirst)),
      Source.orElse_of_isSome hsome]

theorem findByType_asks_found (signature : Signature) (world : World σ) :
    let outcome := c.findByType signature world
    outcome.value = (c.found signature world.env).1 ∧
      outcome.world = ⟨(c.found signature world.env).2, world.cache⟩ := by
  unfold findByType found
  simp only [Run.bind_apply, Run.ask_apply]
  cases (c.find signature world.env).1 with
  | ok handle => exact ⟨rfl, rfl⟩
  | error e => exact ⟨rfl, rfl⟩

theorem locateNamed_asks_located (signature : Signature) (world : World σ) :
    let outcome := c.locateNamed signature world
    outcome.value = (c.located signature world.env).1 ∧
      outcome.world = ⟨(c.located signature world.env).2, world.cache⟩ := by
  unfold locateNamed located
  cases signature.provider with
  | any => exact ⟨rfl, rfl⟩
  | named name =>
    simp only [Run.bind_apply, Run.ask_apply]
    cases (c.locate name signature world.env).1 with
    | ok handle => exact ⟨rfl, rfl⟩
    | error e => exact ⟨rfl, rfl⟩

/-- A provider that is located keeps the discovery by type from being asked, dead or alive. -/
theorem discover_asks_in_turn (signature : Signature) (world : World σ) :
    let given := (c.located signature).orElse (c.found signature) world.env
    (c.discover signature world).value = given.1 ∧
      (c.discover signature world).world = ⟨given.2, world.cache⟩ := by
  obtain ⟨hvalue, hworld⟩ := c.locateNamed_asks_located signature world
  unfold discover Source.orElse
  simp only [Run.bind_apply, hvalue, hworld]
  obtain ⟨handle, env⟩ := c.located signature world.env
  cases handle with
  | some handle => exact ⟨rfl, rfl⟩
  | none => exact c.findByType_asks_found signature ⟨env, world.cache⟩

theorem load_value (signature : Signature) (world : World σ) :
    (c.load signature world).value =
      (c.usable ((c.located signature).orElse (c.found signature)) world.env).1.elim
        (.error (unavailable signature)) .ok := by
  obtain ⟨hvalue, hworld⟩ := c.discover_asks_in_turn signature world
  unfold load usable
  simp only [Run.bind_apply, hvalue, hworld]
  obtain ⟨handle, env⟩ := (c.located signature).orElse (c.found signature) world.env
  cases handle with
  | none => rfl
  | some handle =>
    cases handle with
    | standIn operation => rfl
    | provider provider =>
      simp only [pinged, Run.bind_apply, Run.ask_apply]
      cases (c.ping provider env).1 with
      | ok alive => rfl
      | error e => rfl

/-- The discovery counts as a single source, with a single handle to try. -/
theorem resolve_value (signature : Signature) (world : World σ) :
    (c.resolve signature world).value =
      (c.firstUsable [c.cached signature world.cache,
        (c.located signature).orElse (c.found signature)] world.env).1.elim
          (.error (unavailable signature)) .ok := by
  have hload (cache : Cache) (env : σ) : (c.load signature ⟨env, cache⟩).value =
      (c.firstUsable [(c.located signature).orElse (c.found signature)] env).1.elim
        (.error (unavailable signature)) .ok := by
    rw [c.load_value, firstUsable_single]
  unfold resolve readCache
  rw [firstUsable, Source.orElse, usable, cached]
  simp only [Run.bind_apply, Run.useCache_apply]
  cases hget : (world.cache.get (c.now world.env) signature.service).1 with
  | none => exact hload _ _
  | some provider =>
    simp only [pinged, Run.bind_apply, Run.ask_apply, Option.map_some]
    cases (c.ping provider world.env).1 with
    | ok alive => rfl
    | error e => exact hload _ _

/-- A dead provider that was located by its name ends the resolution. -/
theorem resolve_of_passesOver {signature : Signature} {world : World σ}
    (h : c.PassesOver signature world) :
    (c.resolve signature world).value = .error (unavailable signature) ∧
      (c.firstUsable (c.sources signature world.cache) world.env).1.isSome := by
  obtain ⟨hcached, hgiven, hdead, hfound⟩ := h
  rw [c.resolve_value, sources]
  simp only [firstUsable, Source.orElse_nothing]
  rw [Source.orElse_of_none hcached, Source.orElse_of_none hcached, Source.orElse_of_none hdead,
    c.usable_congr (Source.orElse_of_isSome hgiven), hdead]
  exact ⟨rfl, hfound⟩

theorem resolve_of_not_passesOver {signature : Signature} {world : World σ}
    (h : ¬ c.PassesOver signature world) :
    (c.resolve signature world).value =
      (c.firstUsable (c.sources signature world.cache) world.env).1.elim
        (.error (unavailable signature)) .ok := by
  rw [c.resolve_value, sources]
  simp only [firstUsable, Source.orElse_nothing]
  cases hcached : (c.usable (c.cached signature world.cache) world.env).1 with
  | some handle =>
    have hsome := Option.isSome_of_eq_some hcached
    rw [Source.orElse_of_isSome hsome, Source.orElse_of_isSome hsome]
  | none =>
    rw [Source.orElse_of_none hcached, Source.orElse_of_none hcached]
    generalize henv : (c.usable (c.cached signature world.cache) world.env).2 = env
    by_cases hlocated : (c.located signature env).1 = none ∨
        (c.usable (c.located signature) env).1.isSome
    · rw [c.usable_orElse hlocated]
    · -- a dead provider was located, and what is found by type cannot be used either
      obtain ⟨hgiven, hdead⟩ := not_or.mp hlocated
      rw [← ne_eq, ← Option.isSome_iff_ne_none] at hgiven
      rw [Option.not_isSome_iff_eq_none] at hdead
      have hfound : (c.usable (c.found signature) (c.usable (c.located signature) env).2).1 =
          none := by
        rw [← Option.not_isSome_iff_eq_none]
        intro hfound
        subst henv
        exact h ⟨hcached, hgiven, hdead, hfound⟩
      rw [c.usable_congr (Source.orElse_of_isSome hgiven), Source.orElse_of_none hdead, hdead,
        hfound]

/-- A resolution fails exactly if none of its sources has a handle that can be used, or if it
passes over what the discovery by type has. In all other cases it answers the first handle that can
be used. -/
theorem resolve_fails_iff (signature : Signature) (world : World σ) :
    let answer := (c.resolve signature world).value
    let first := (c.firstUsable (c.sources signature world.cache) world.env).1
    ((∃ error, answer = .error error) ↔ first = none ∨ c.PassesOver signature world) ∧
      (c.PassesOver signature world → first.isSome) ∧
      (¬ c.PassesOver signature world →
        answer = first.elim (.error (unavailable signature)) .ok) := by
  intro answer first
  refine ⟨?_, fun h => (c.resolve_of_passesOver h).2, fun h => c.resolve_of_not_passesOver h⟩
  by_cases hpasses : c.PassesOver signature world
  · exact iff_of_true ⟨_, (c.resolve_of_passesOver hpasses).1⟩ (.inr hpasses)
  · have hanswer : answer = first.elim (.error (unavailable signature)) .ok :=
      c.resolve_of_not_passesOver hpasses
    rw [hanswer]
    cases first with
    | none => exact iff_of_true ⟨_, rfl⟩ (.inl rfl)
    | some handle => simp [hpasses]

def misled : Collaborators Unit :=
  { relocated with locate := fun _ _ _ => (.ok (some (.provider ⟨"first", .ofNat 1, false⟩)), ()) }

/-- A resolution fails although the discovery by type has a provider that is alive. -/
theorem live_provider_passed_over :
    let signature := (Signature.net "add" "Adder").withProvider (.named "west")
    let world : World Unit := ⟨(), .empty 2 10⟩
    (misled.resolve signature world).value = .error (unavailable signature) ∧
      (misled.firstUsable (misled.sources signature world.cache) world.env).1 =
        some (.provider ⟨"second", .ofNat 2, false⟩) :=
  ⟨rfl, rfl⟩

theorem resolve_fails_iff_relocated :
    let signature := (Signature.net "add" "Adder").withProvider (.named "west")
    let cache : Cache := ⟨2, 10, [⟨signature.service, ⟨"first", .ofNat 1, false⟩, 0⟩]⟩
    let answer := (relocated.resolve signature ⟨(), cache⟩).value
    let lost := (misled.resolve signature ⟨(), cache⟩).value
    ¬ relocated.PassesOver signature ⟨(), cache⟩ ∧ misled.PassesOver signature ⟨(), cache⟩ ∧
      answer = .ok (.provider ⟨"second", .ofNat 2, false⟩) ∧ ∃ error, lost = .error error := by
  intro signature cache answer lost
  have hnot : ¬ relocated.PassesOver signature ⟨(), cache⟩ := fun h => by cases h.2.1
  have hpasses : misled.PassesOver signature ⟨(), cache⟩ := ⟨rfl, rfl, rfl, rfl⟩
  exact ⟨hnot, hpasses, (relocated.resolve_fails_iff signature ⟨(), cache⟩).2.2 hnot,
    (misled.resolve_fails_iff signature ⟨(), cache⟩).1.mpr (.inr hpasses)⟩

end Collaborators
end ServiceShell
