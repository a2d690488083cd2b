import ServiceShell.Proofs.CacheQueue
import ServiceShell.Proofs.Run
import ServiceShell.Resolution
/-!
What a resolution answers, which questions it puts to the discovery, and what it leaves in the
cache.
-/
namespace ServiceShell

namespace Cache

theorem find?_remove (cache : Cache) (service : Service) :
    (cache.remove service).find? service = none := by
  rw [find?_eq_none_iff]
  intro hmem
  obtain ⟨load, hload, hservice⟩ := List.mem_map.mp hmem
  exact ((mem_remove cache service load).mp hload).2 hservice

theorem get_snd_of_some {cache : Cache} {now : Nat} {service : Service} {provider : Provider}
    (h : (cache.get now service).1 = some provider) : (cache.get now service).2 = cache := by
  unfold get at h ⊢
  cases hfind : cache.find? service with
  | none => rfl
  | some load =>
    rw [hfind] at h
    dsimp only at h ⊢
    split at h
    · rename_i hfresh
      rw [if_pos hfresh]
    · cases h

theorem get_snd_of_none {cache : Cache} {now : Nat} {service : Service}
    (h : (cache.get now service).1 = none) :
    (cache.get now service).2.find? service = none ∧
      (cache.get now service).2.capacity = cache.capacity ∧
        (cache.get now service).2.ttl = cache.ttl := by
  unfold get at h ⊢
  cases hfind : cache.find? service with
  | none => exact ⟨hfind, rfl, rfl⟩
  | some load =>
    rw [hfind] at h
    dsimp only at h ⊢
    split at h
    · cases h
    · rename_i hexpired
      rw [if_neg hexpired]
      exact ⟨cache.find?_remove service, rfl, rfl⟩

theorem get_insert {cache : Cache} (hcapacity : 0 < cache.capacity) (httl : 0 < cache.ttl)
    (now : Nat) (service : Service) (provider : Provider) :
    ((cache.insert now service provider).get now service).1 = some provider := by
  let new : Load := ⟨service, provider, now⟩
  let room := ((cache.purge now).makeRoom service).remove service
  have hinsert : cache.insert now service provider =
      { cache with loads := room.loads ++ [new] } :=
    (insert_eq (Nat.ne_of_gt hcapacity) now service provider).1
  have hfind : (cache.insert now service provider).find? service = some new := by
    have hnone : room.loads.find? (·.service = service) = none :=
      ((cache.purge now).makeRoom service).find?_remove service
    have hnew : [new].find? (·.service = service) = some new := by simp [new]
    rw [hinsert, find?, List.find?_append, hnone, hnew]
    rfl
  have hfresh : new.isFresh now (cache.insert now service provider).ttl = true := by
    rw [hinsert]
    simpa [Load.isFresh, new] using httl
  unfold get
  rw [hfind]
  dsimp only
  rw [if_pos hfresh]

end Cache

def Event.isQuery : Event → Bool
  | located .. | found .. => true
  | _ => false

/-- The questions of one reload. A provider is located if the signature names one, and one is found
by its type if none was to be located or the location gave no handle. -/
inductive Reload (signature : Signature) : List Event → Prop
  | located {name : String} {handle : Handle} : signature.provider = .named name →
    Reload signature [.located name signature (.ok (some handle))]
  | locatedInVain {name : String} {located found : Except RemoteError (Option Handle)} :
    signature.provider = .named name → (∀ handle, located ≠ .ok (some handle)) →
      Reload signature [.located name signature located, .found signature found]
  | found {found : Except RemoteError (Option Handle)} : signature.provider = .any →
    Reload signature [.found signature found]

namespace Collaborators
variable {σ : Type} (c : Collaborators σ)

def liveCached? (signature : Signature) (world : World σ) : Option Provider :=
  (world.cache.get (c.now world.env) signature.service).1.filter fun provider =>
    (c.ping provider world.env).1.isOk

theorem findByType_asks (signature : Signature) (world : World σ) :
    let outcome := c.findByType signature world
    outcome.world.cache = world.cache ∧
      ∃ answer, outcome.events.filter Event.isQuery = [.found signature answer] := by
  unfold findByType
  simp only [Run.bind_apply, Run.ask_apply]
  cases (c.find signature world.env).1 with
  | ok handle => exact ⟨rfl, _, rfl⟩
  | error e => exact ⟨rfl, _, rfl⟩

theorem discover_reloads (signature : Signature) (world : World σ) :
    let outcome := c.discover signature world
    outcome.world.cache = world.cache ∧
      Reload signature (outcome.events.filter Event.isQuery) := by
  unfold discover locateNamed
  cases hname : signature.provider with
  | any =>
    obtain ⟨hcache, answer, hevents⟩ := c.findByType_asks signature world
    refine ⟨hcache, ?_⟩
    simp only [Run.bind_apply, Run.pure_apply, List.nil_append, hevents]
    exact .found hname
  | named name =>
    simp only [Run.bind_apply, Run.ask_apply]
    cases hlocated : (c.locate name signature world.env).1 with
    | ok handle =>
      cases handle with
      | some handle => exact ⟨rfl, .located hname⟩
      | none =>
        obtain ⟨hcache, answer, hevents⟩ := c.findByType_asks signature
          { world with env := (c.locate name signature world.env).2 }
        refine ⟨hcache, ?_⟩
        simp only [Run.pure_apply, List.append_nil, List.filter_append, hevents]
        exact .locatedInVain hname (by simp)
    | error e =>
      obtain ⟨hcache, answer, hevents⟩ := c.findByType_asks signature
        { world with env := (c.locate name signature world.env).2 }
      refine ⟨hcache, ?_⟩
      simp only [Run.bind_apply, Run.note_apply, Run.pure_apply, List.append_nil,
        List.filter_append, hevents]
      exact .locatedInVain hname (by simp)

/-- What a resolution answers, given its events and the cache as it is read behind it. -/
inductive Resolved (signature : Signature) (events : List Event) (now : Nat) (cache : Cache) :
    Except DispatchError Handle → Prop
  | provider {provider : Provider} : .pinged provider (.ok ()) ∈ events →
    (cache.get now signature.service).1 = some provider →
      Resolved signature events now cache (.ok (.provider provider))
  | standIn {operation : Operation} : cache.find? signature.service = none →
    Resolved signature events now cache (.ok (.standIn operation))
  | unavailable : cache.find? signature.service = none →
    Resolved signature events now cache
      (.error (.providerUnavailable signature.provider.text signature.type))

theorem Resolved.mono {signature : Signature} {events more : List Event} {now : Nat} {cache : Cache}
    {answer : Except DispatchError Handle} (h : Resolved signature events now cache answer)
    (hevents : events ⊆ more) : Resolved signature more now cache answer := by
  cases h with
  | provider hpinged hget => exact .provider (hevents hpinged) hget
  | standIn hfind => exact .standIn hfind
  | unavailable hfind => exact .unavailable hfind

/-- A reload keeps a provider only behind its ping, and nothing else. -/
theorem load_resolves (signature : Signature) (world : World σ)
    (hfind : world.cache.find? signature.service = none) (hcapacity : 0 < world.cache.capacity)
    (httl : 0 < world.cache.ttl) :
    let outcome := c.load signature world
    Reload signature (outcome.events.filter Event.isQuery) ∧
      Resolved signature outcome.events (c.now outcome.world.env) outcome.world.cache
        outcome.value := by
  obtain ⟨hcache, hreload⟩ := c.discover_reloads signature world
  unfold load
  simp only [Run.bind_apply, List.filter_append]
  generalize c.discover signature world = discovered at hcache hreload ⊢
  obtain ⟨handle, ⟨env, cache⟩, events⟩ := discovered
  obtain rfl : cache = world.cache := hcache
  -- behind the discovery there are no more questions to it
  have hlater (later : List Event) (hnone : later.filter Event.isQuery = []) :
      Reload signature (events.filter Event.isQuery ++ later.filter Event.isQuery) := by
    rw [hnone, List.append_nil]
    exact hreload
  cases handle with
  | none => exact ⟨hlater _ rfl, .unavailable hfind⟩
  | some handle =>
    cases handle with
    | standIn operation => exact ⟨hlater _ rfl, .standIn hfind⟩
    | provider provider =>
      simp only [pinged, Run.bind_apply, Run.ask_apply]
      cases hping : (c.ping provider env).1 with
      | error e => exact ⟨hlater _ rfl, .unavailable hfind⟩
      | ok alive =>
        refine ⟨hlater _ rfl, .provider ?_ ?_⟩
        · simp [keep]
        · exact Cache.get_insert hcapacity httl _ signature.service provider

theorem liveCached?_some {signature : Signature} {world : World σ} {provider : Provider}
    (h : c.liveCached? signature world = some provider) :
    (world.cache.get (c.now world.env) signature.service).1 = some provider ∧
      (c.ping provider world.env).1 = .ok () := by
  obtain ⟨hget, halive⟩ := Option.filter_eq_some_iff.mp h
  refine ⟨hget, ?_⟩
  cases hping : (c.ping provider world.env).1 with
  | ok => rfl
  | error e => simp [hping, Except.isOk, Except.toBool] at halive

/-- A cached provider that is alive is answered behind its ping, and stays where it is. -/
theorem resolve_cached {signature : Signature} {world : World σ} {provider : Provider}
    (h : c.liveCached? signature world = some provider) :
    let outcome := c.resolve signature world
    outcome.value = .ok (.provider provider) ∧ outcome.events = [.pinged provider (.ok ())] ∧
      outcome.world.cache = world.cache := by
  obtain ⟨hget, hping⟩ := c.liveCached?_some h
  unfold resolve readCache
  simp only [Run.bind_apply, Run.useCache_apply, hget, pinged, Run.ask_apply, hping]
  exact ⟨rfl, rfl, Cache.get_snd_of_some hget⟩

/-- An expired entry is dropped when it is read, and a dead one behind its ping, so that a reload
finds nothing in their place. -/
theorem resolve_reloads {signature : Signature} {world : World σ}
    (h : c.liveCached? signature world = none) (hcapacity : 0 < world.cache.capacity)
    (httl : 0 < world.cache.ttl) :
    let outcome := c.resolve signature world
    Reload signature (outcome.events.filter Event.isQuery) ∧
      Resolved signature outcome.events (c.now outcome.world.env) outcome.world.cache
        outcome.value := by
  unfold resolve readCache
  simp only [Run.bind_apply, Run.useCache_apply]
  cases hget : (world.cache.get (c.now world.env) signature.service).1 with
  | none =>
    obtain ⟨hfind, hsame, hsameTtl⟩ := Cache.get_snd_of_none hget
    let purged := (world.cache.get (c.now world.env) signature.service).2
    obtain ⟨hreload, hresolved⟩ := c.load_resolves signature { world with cache := purged } hfind
      (hsame ▸ hcapacity) (hsameTtl ▸ httl)
    exact ⟨hreload, hresolved⟩
  | some provider =>
    have hsame := Cache.get_snd_of_some hget
    simp only [pinged, Run.bind_apply, Run.ask_apply, hsame]
    cases hping : (c.ping provider world.env).1 with
    | ok => simp [liveCached?, hget, hping, Option.filter, Except.isOk, Except.toBool] at h
    | error e =>
      simp only [Run.bind_apply, Run.note_apply, forget, Run.useCache_apply, Cache.invalidate]
      obtain ⟨hreload, hresolved⟩ := c.load_resolves signature
        ⟨(c.ping provider world.env).2, world.cache.remove signature.service⟩
        (world.cache.find?_remove signature.service) hcapacity httl
      refine ⟨hreload, hresolved.mono ?_⟩
      simp

/-- What a resolution does, whatever the cache holds and the collaborators answer. A provider that
it answers has been pinged in this call, and the cache has it, unless it was cached before and time
has passed since. In all other cases the cache has nothing for the signature. The discovery is
asked exactly if the cache has no provider that is alive, and then in one reload. -/
theorem resolve_contract (signature : Signature) (world : World σ)
    (hcapacity : 0 < world.cache.capacity) (httl : 0 < world.cache.ttl) :
    let outcome := c.resolve signature world
    let queries := outcome.events.filter Event.isQuery
    let now := c.now outcome.world.env
    let cache := outcome.world.cache
    (∀ provider, outcome.value = .ok (.provider provider) →
      .pinged provider (.ok ()) ∈ outcome.events ∧
        (queries ≠ [] ∨ now = c.now world.env →
          (cache.get now signature.service).1 = some provider)) ∧
    ((∀ provider, outcome.value ≠ .ok (.provider provider)) →
      cache.find? signature.service = none) ∧
    (∀ error, outcome.value = .error error →
      error = .providerUnavailable signature.provider.text signature.type) ∧
    (∀ provider, c.liveCached? signature world = some provider →
      outcome.value = .ok (.provider provider) ∧ queries = []) ∧
    (c.liveCached? signature world = none → Reload signature queries) := by
  dsimp only
  cases hlive : c.liveCached? signature world with
  | some provider =>
    obtain ⟨hvalue, hevents, hcache⟩ := c.resolve_cached hlive
    obtain ⟨hget, -⟩ := c.liveCached?_some hlive
    rw [hvalue, hevents, hcache]
    refine ⟨?_, fun hnot => absurd rfl (hnot provider), by simp, ?_, by simp⟩
    · rintro _ ⟨⟩
      refine ⟨by simp, fun hstill => ?_⟩
      obtain hstill : c.now (c.resolve signature world).world.env = c.now world.env := by
        simpa [Event.isQuery] using hstill
      rw [hstill]
      exact hget
    · rintro _ ⟨⟩
      exact ⟨rfl, rfl⟩
  | none =>
    obtain ⟨hreload, hresolved⟩ := c.resolve_reloads hlive hcapacity httl
    generalize c.resolve signature world = outcome at hreload hresolved ⊢
    obtain ⟨value, later, events⟩ := outcome
    refine ⟨?_, ?_, ?_, by simp, fun _ => hreload⟩
    · rintro provider rfl
      cases hresolved with
      | provider hpinged hget => exact ⟨hpinged, fun _ => hget⟩
    · intro hnot
      cases hresolved with
      | provider => exact absurd rfl (hnot _)
      | standIn hfind => exact hfind
      | unavailable hfind => exact hfind
    · rintro error rfl
      cases hresolved
      rfl

def relocated : Collaborators Unit where
  now := fun _ => 5
  freshId := fun _ => (.ofNat 0, ())
  locate := fun _ _ _ => (.ok none, ())
  find := fun _ _ => (.ok (some (.provider ⟨"second", .ofNat 2, false⟩)), ())
  ping := fun provider _ =>
    (if provider.name = "first" then .error (.unreachable "first") else .ok (), ())
  invoke := fun _ _ _ _ _ => (.ok none, ())
  exclusion := none

/-- A dead provider in the cache is replaced by one that is found by its type, since the one that
the signature names is not located. -/
theorem resolve_contract_relocated :
    let signature := (Signature.net "add" "Adder").withProvider (.named "west")
    let cache : Cache := ⟨2, 10, [⟨signature.service, ⟨"first", .ofNat 1, false⟩, 0⟩]⟩
    let outcome := relocated.resolve signature ⟨(), cache⟩
    0 < cache.capacity ∧ 0 < cache.ttl ∧
      outcome.value = .ok (.provider ⟨"second", .ofNat 2, false⟩) ∧
        Reload signature (outcome.events.filter Event.isQuery) ∧
          (outcome.world.cache.get 5 signature.service).1 = some ⟨"second", .ofNat 2, false⟩ := by
  intro signature cache outcome
  obtain ⟨hprovider, -, -, -, hreload⟩ :=
    relocated.resolve_contract signature ⟨(), cache⟩ (by decide) (by decide)
  have hvalue : outcome.value = .ok (.provider ⟨"second", .ofNat 2, false⟩) := rfl
  exact ⟨by decide, by decide, hvalue, hreload rfl, (hprovider _ hvalue).2 (.inr rfl)⟩

end Collaborators
end ServiceShell
