import ServiceShell.Proofs.Coupling
/-!
The cache of providers is only an optimisation. Where discovery answers by the service that a
signature asks for, always in the same way, and all providers are alive, neither the capacity of the
cache nor the time that it trusts a provider nor the clock shows in what is dispatched.
-/
namespace ServiceShell
variable {σ τ α β : Type}

structure Directory where
  locate : Service → Except RemoteError (Option Handle)
  find : Service → Except RemoteError (Option Handle)

namespace Directory

def handle? : Except RemoteError (Option Handle) → Option Handle
  | .ok handle => handle
  | .error _ => none

def located (directory : Directory) (service : Service) : Option Handle :=
  match service.provider with
  | .any => none
  | .named _ => handle? (directory.locate service)

def discovered (directory : Directory) (service : Service) : Option Handle :=
  (directory.located service).or (handle? (directory.find service))

/-- What a signature resolves to where all providers are alive. -/
def resolution (directory : Directory) (signature : Signature) : Except DispatchError Handle :=
  match directory.discovered signature.service with
  | some handle => .ok handle
  | none => .error (Collaborators.unavailable signature)

def Backs (directory : Directory) (cache : Cache) : Prop :=
  ∀ load ∈ cache.loads, directory.discovered load.service = some (.provider load.provider)

/-- Where the environment has a property that no search takes from it, discovery answers by the
directory and all providers are alive. -/
structure Serves (directory : Directory) (c : Collaborators σ) (holds : σ → Prop) : Prop where
  locate {signature : Signature} {name : String} {env : σ} : signature.provider = .named name →
    holds env → (c.locate name signature env).1 = directory.locate signature.service ∧
      holds (c.locate name signature env).2
  find (signature : Signature) {env : σ} : holds env →
    (c.find signature env).1 = directory.find signature.service ∧ holds (c.find signature env).2
  ping (provider : Provider) {env : σ} : holds env →
    (c.ping provider env).1 = .ok () ∧ holds (c.ping provider env).2

namespace Backs
variable {directory : Directory} {cache other : Cache}

theorem empty (directory : Directory) (capacity ttl : Nat) :
    directory.Backs (.empty capacity ttl) := by
  simp [Backs, Cache.empty]

theorem of_subset (h : directory.Backs cache) (hloads : other.loads ⊆ cache.loads) :
    directory.Backs other :=
  fun load hload => h load (hloads hload)

theorem remove (h : directory.Backs cache) (service : Service) :
    directory.Backs (cache.remove service) :=
  h.of_subset fun _ => List.mem_of_mem_filter

theorem get (h : directory.Backs cache) (now : Nat) (service : Service) :
    (∀ provider, (cache.get now service).1 = some provider →
      directory.discovered service = some (.provider provider)) ∧
        directory.Backs (cache.get now service).2 := by
  unfold Cache.get
  cases hfind : cache.find? service with
  | none => exact ⟨by simp, h⟩
  | some load =>
    have hload := List.mem_of_find?_eq_some hfind
    have hservice : load.service = service := by simpa using List.find?_some hfind
    dsimp only
    split
    · refine ⟨fun provider heq => ?_, h⟩
      rw [← hservice, h load hload, Option.some.inj heq]
    · exact ⟨by simp, h.remove service⟩

theorem makeRoom (h : directory.Backs cache) (service : Service) :
    directory.Backs (cache.makeRoom service) := by
  unfold Cache.makeRoom
  split
  · split
    · exact h.remove _
    · exact h
  · exact h

theorem insert (h : directory.Backs cache) (now : Nat) {service : Service} {provider : Provider}
    (hprovider : directory.discovered service = some (.provider provider)) :
    directory.Backs (cache.insert now service provider) := by
  unfold Cache.insert
  split
  · exact h
  · have hpurged : directory.Backs (cache.purge now) := h.of_subset fun _ => List.mem_of_mem_filter
    intro load hload
    obtain hload | hload := List.mem_append.mp hload
    · exact ((hpurged.makeRoom service).remove service) load hload
    · obtain rfl := List.mem_singleton.mp hload
      exact hprovider

end Backs
end Directory

def Run.Searches (x : Run σ α) (holds : World σ → Prop) (post : α → Prop) : Prop :=
  ∀ world, holds world → post (x world).value ∧ holds (x world).world ∧
    ∀ event ∈ (x world).events, event.isSearch

namespace Run.Searches
variable {x : Run σ α} {f : α → Run σ β} {holds : World σ → Prop} {post : α → Prop}
  {later : β → Prop}

theorem pure {value : α} (h : post value) : (Pure.pure value : Run σ α).Searches holds post :=
  fun _ hholds => ⟨h, hholds, by simp⟩

theorem bind (h : x.Searches holds post)
    (hf : ∀ value, post value → (f value).Searches holds later) :
    (x >>= f).Searches holds later := by
  intro world hholds
  obtain ⟨hvalue, hworld, hevents⟩ := h world hholds
  obtain ⟨hlast, hend, hmore⟩ := hf _ hvalue _ hworld
  exact ⟨hlast, hend, List.forall_mem_append.mpr ⟨hevents, hmore⟩⟩

theorem note {n : Note} (h : (Event.note n).isSearch) :
    (Run.note n : Run σ Unit).Searches holds fun _ => True :=
  fun _ hholds => ⟨trivial, hholds, List.forall_mem_singleton.mpr h⟩

end Run.Searches

namespace Directory.Serves
variable {directory : Directory} {c : Collaborators σ} {envHolds : σ → Prop}

def Holds (directory : Directory) (envHolds : σ → Prop) (world : World σ) : Prop :=
  envHolds world.env ∧ directory.Backs world.cache

variable (h : directory.Serves c envHolds)
include h

theorem locateNamed (signature : Signature) : (c.locateNamed signature).Searches
    (Holds directory envHolds) (· = directory.located signature.service) := by
  unfold Collaborators.locateNamed Directory.located
  have hservice : signature.service.provider = signature.provider := rfl
  rw [hservice]
  cases hprovider : signature.provider with
  | any => exact .pure rfl
  | named name =>
    have hasked : (Run.ask (c.locate name signature) (.located name signature)).Searches
        (Holds directory envHolds) (· = directory.locate signature.service) :=
      fun world hholds => ⟨(h.locate hprovider hholds.1).1,
        ⟨(h.locate hprovider hholds.1).2, hholds.2⟩, List.forall_mem_singleton.mpr rfl⟩
    refine hasked.bind fun answer heq => ?_
    subst heq
    dsimp only
    cases directory.locate signature.service with
    | ok handle => exact .pure rfl
    | error e => exact (Run.Searches.note rfl).bind fun _ _ => .pure rfl

theorem findByType (signature : Signature) : (c.findByType signature).Searches
    (Holds directory envHolds) (· = handle? (directory.find signature.service)) := by
  unfold Collaborators.findByType
  have hasked : (Run.ask (c.find signature) (.found signature)).Searches
      (Holds directory envHolds) (· = directory.find signature.service) :=
    fun world hholds => ⟨(h.find signature hholds.1).1,
      ⟨(h.find signature hholds.1).2, hholds.2⟩, List.forall_mem_singleton.mpr rfl⟩
  refine hasked.bind fun answer heq => ?_
  subst heq
  cases directory.find signature.service with
  | ok handle => exact .pure rfl
  | error e => exact (Run.Searches.note rfl).bind fun _ _ => .pure rfl

theorem discover (signature : Signature) : (c.discover signature).Searches
    (Holds directory envHolds) (· = directory.discovered signature.service) := by
  unfold Collaborators.discover discovered
  refine (h.locateNamed signature).bind fun answer heq => ?_
  subst heq
  cases directory.located signature.service with
  | some handle => exact .pure rfl
  | none => exact h.findByType signature

theorem pinged (provider : Provider) : (c.pinged provider).Searches
    (Holds directory envHolds) (· = .ok ()) :=
  fun _ hholds => ⟨(h.ping provider hholds.1).1, ⟨(h.ping provider hholds.1).2, hholds.2⟩,
    List.forall_mem_singleton.mpr rfl⟩

omit h in
theorem readCache (signature : Signature) : (c.readCache signature).Searches
    (Holds directory envHolds) fun cached => ∀ provider, cached = some provider →
      directory.discovered signature.service = some (.provider provider) :=
  fun _ hholds => ⟨(hholds.2.get _ signature.service).1, ⟨hholds.1, (hholds.2.get _ _).2⟩,
    List.forall_mem_nil _⟩

omit h in
theorem keep {signature : Signature} {provider : Provider}
    (hprovider : directory.discovered signature.service = some (.provider provider)) :
    (c.keep signature provider).Searches (Holds directory envHolds) fun _ => True :=
  fun _ hholds => ⟨trivial, ⟨hholds.1, hholds.2.insert _ hprovider⟩, List.forall_mem_nil _⟩

theorem load (signature : Signature) : (c.load signature).Searches
    (Holds directory envHolds) (· = directory.resolution signature) := by
  unfold Collaborators.load resolution
  refine (h.discover signature).bind fun answer heq => ?_
  subst heq
  cases hdiscovered : directory.discovered signature.service with
  | none => exact (Run.Searches.note rfl).bind fun _ _ => .pure rfl
  | some handle =>
    cases handle with
    | standIn operation => exact .pure rfl
    | provider provider =>
      refine (h.pinged provider).bind fun answer heq => ?_
      subst heq
      exact (keep hdiscovered).bind fun _ _ => .pure rfl

/-- Whatever the cache holds, a signature resolves by the directory. -/
theorem resolve (signature : Signature) : (c.resolve signature).Searches
    (Holds directory envHolds) (· = directory.resolution signature) := by
  unfold Collaborators.resolve
  refine (readCache signature).bind fun cached hcached => ?_
  cases cached with
  | none => exact h.load signature
  | some provider =>
    refine (h.pinged provider).bind fun answer heq => ?_
    subst heq
    refine .pure ?_
    rw [resolution, hcached provider rfl]

end Directory.Serves

structure Exclusion.Coupled (same : Uuid → Uuid → Prop) (envs : σ → τ → Prop)
    (exclusion : Exclusion σ) (other : Exclusion τ) : Prop where
  create {env : σ} {last : τ} : envs env last →
    (exclusion.create env).1 = (other.create last).1 ∧
      envs (exclusion.create env).2 (other.create last).2
  acquire (key : String) {owner lastOwner : Uuid} (txn : Transaction) {env : σ} {last : τ} :
    same owner lastOwner → envs env last →
      (exclusion.acquire key owner txn env).1 = (other.acquire key lastOwner txn last).1 ∧
        envs (exclusion.acquire key owner txn env).2 (other.acquire key lastOwner txn last).2
  commit (txn : Transaction) {env : σ} {last : τ} : envs env last →
    (exclusion.commit txn env).1 = (other.commit txn last).1 ∧
      envs (exclusion.commit txn env).2 (other.commit txn last).2
  abort (txn : Transaction) {env : σ} {last : τ} : envs env last →
    (exclusion.abort txn env).1 = (other.abort txn last).1 ∧
      envs (exclusion.abort txn env).2 (other.abort txn last).2

/-- Collaborators in related environments. The relation, which no search and no clock disturbs, lets
providers, lock services and transaction managers answer alike. The ids that are drawn are taken for
the same; a provider may tell them apart only by the id of the unit that it returns. -/
structure Coupled (directory : Directory) (same : Uuid → Uuid → Prop) (envs : σ → τ → Prop)
    (c : Collaborators σ) (d : Collaborators τ) : Prop where
  left (other : τ) : directory.Serves c (envs · other)
  right (env : σ) : directory.Serves d (envs env)
  freshId {env : σ} {other : τ} : envs env other →
    same (c.freshId env).1 (d.freshId other).1 ∧ envs (c.freshId env).2 (d.freshId other).2
  invoke (provider : Provider) {work twin : Work} (txn : Option Transaction) (args : List Argument)
      {env : σ} {other : τ} : work.Twin same twin → envs env other →
    AnswerTwin (Kept same work.core.id twin.core.id) (c.invoke provider work txn args env).1
        (d.invoke provider twin txn args other).1 ∧
      envs (c.invoke provider work txn args env).2 (d.invoke provider twin txn args other).2
  exclusion : Option.Rel (Exclusion.Coupled same envs) c.exclusion d.exclusion

def Directory.likeness (directory : Directory) (same : Uuid → Uuid → Prop)
    (envs : σ → τ → Prop) : Likeness σ τ where
  same
  worlds world other :=
    envs world.env other.env ∧ directory.Backs world.cache ∧ directory.Backs other.cache

namespace Run.Alike
variable {directory : Directory} {same : Uuid → Uuid → Prop} {envs : σ → τ → Prop}

/-- Two searches for the same value, each of which leaves the relation as it is. -/
theorem of_searches {x : Run σ α} {y : Run τ α} {value : α}
    (hx : ∀ other, x.Searches (Directory.Serves.Holds directory (envs · other)) (· = value))
    (hy : ∀ env, y.Searches (Directory.Serves.Holds directory (envs env)) (· = value)) :
    Run.Alike (directory.likeness same envs) Eq x y := by
  rintro world other ⟨henvs, hbacks, hothers⟩
  obtain ⟨hvalue, hworld, hevents⟩ := hx other.env world ⟨henvs, hbacks⟩
  obtain ⟨hlast, hother, hmore⟩ := hy (x world).world.env other ⟨hworld.1, hothers⟩
  exact ⟨hvalue.trans hlast.symm, ⟨hother.1, hworld.2, hother.2⟩, .of_search hevents hmore⟩

theorem ask {values : α → β → Prop} {question : σ → α × σ} {other : τ → β × τ}
    {event : α → Event} {otherEvent : β → Event}
    (h : ∀ env last, envs env last →
      values (question env).1 (other last).1 ∧ envs (question env).2 (other last).2)
    (hevent : ∀ answer last, values answer last → (event answer).Twin same (otherEvent last)) :
    Run.Alike (directory.likeness same envs) values (Run.ask question event)
      (Run.ask other otherEvent) := by
  rintro world last ⟨henvs, hbacks, hothers⟩
  obtain ⟨hanswer, henvs⟩ := h world.env last.env henvs
  exact ⟨hanswer, ⟨henvs, hbacks, hothers⟩, .singleton (hevent _ _ hanswer)⟩

end Run.Alike

theorem Exclusion.Coupled.alike {directory : Directory} {same : Uuid → Uuid → Prop}
    {envs : σ → τ → Prop} {exclusion : Exclusion σ} {other : Exclusion τ}
    (h : Exclusion.Coupled same envs exclusion other) :
    Exclusion.Alike (directory.likeness same envs) exclusion other where
  create := .ask (fun _ _ => h.create) fun _ _ heq => heq ▸ .created _
  acquire key txn hsame := .ask (fun _ _ => h.acquire key txn hsame) fun _ _ heq =>
    heq ▸ .locked key txn _ hsame
  commit txn := .ask (fun _ _ => h.commit txn) fun _ _ heq => heq ▸ .committed txn _
  abort txn := .ask (fun _ _ => h.abort txn) fun _ _ heq => heq ▸ .aborted txn _

theorem Coupled.peers {directory : Directory} {same : Uuid → Uuid → Prop} {envs : σ → τ → Prop}
    {shell : Shell σ} {other : Shell τ} (hrefl : ∀ id, same id id)
    (h : Coupled directory same envs shell.collaborators other.collaborators)
    (hqueue : other.config.queueName = shell.config.queueName)
    (hdepth : other.config.maxDelegationDepth = shell.config.maxDelegationDepth) :
    (directory.likeness same envs).Peers shell other where
  depth := hdepth
  refl := hrefl
  fresh := by
    rintro world last ⟨henvs, hbacks, hothers⟩
    obtain ⟨hsame, henvs⟩ := h.freshId henvs
    exact ⟨hsame, ⟨henvs, hbacks, hothers⟩, .nil⟩
  queue := hqueue
  resolve signature := .of_searches (fun last => (h.left last).resolve signature)
    fun env => (h.right env).resolve signature
  call provider txn args htwin := .ask (fun _ _ => h.invoke provider txn args htwin)
    fun _ _ hanswer => .invoked provider txn args htwin (hanswer.mono And.left)
  exclusion := by
    have hexclusion := h.exclusion
    cases hone : shell.collaborators.exclusion <;> cases htwo : other.collaborators.exclusion <;>
      rw [hone, htwo] at hexclusion <;> cases hexclusion
    · exact .none
    · exact .some (Exclusion.Coupled.alike ‹_›)

/-- A caller of shells that share a world: what it hands in next, and to which shell, may depend on
all that has come back. -/
inductive Caller (ι : Type) where
  | done
  | dispatch (shell : ι) (call : Call) (work : Work) (next : Dispatched → Caller ι)

def Caller.run {ι : Type} (shells : ι → Shell σ) : Caller ι → Run σ (List Dispatched)
  | .done => return []
  | .dispatch index call work next => do
    let ended ← (shells index).dispatch call work
    let later ← (next ended).run shells
    return ended :: later

/-- What comes back is the same, and so is all that happens, the search for providers aside. -/
theorem Caller.run_cached {ι : Type} {directory : Directory} {same : Uuid → Uuid → Prop}
    {envs : σ → τ → Prop} (hrefl : ∀ id, same id id) {shells : ι → Shell σ} {others : ι → Shell τ}
    (hcoupled : ∀ index, Coupled directory same envs (shells index).collaborators
      (others index).collaborators)
    (hconfig : ∀ index, (others index).config.queueName = (shells index).config.queueName ∧
      (others index).config.maxDelegationDepth = (shells index).config.maxDelegationDepth)
    (caller : Caller ι) {world : World σ} {other : World τ} (henvs : envs world.env other.env)
    (hbacks : directory.Backs world.cache) (hothers : directory.Backs other.cache) :
    (caller.run others other).value = (caller.run shells world).value ∧
      SameHistory same (caller.run shells world).events (caller.run others other).events := by
  have halike : Run.Alike (directory.likeness same envs) Eq (caller.run shells)
      (caller.run others) := by
    induction caller with
    | done => exact .pure rfl
    | dispatch index call work next ih =>
      have hpeers := (hcoupled index).peers hrefl (hconfig index).1 (hconfig index).2
      unfold Caller.run
      refine (Shell.dispatch_alike hpeers call work).bind fun ended last heq => ?_
      subst heq
      exact (ih ended).bind fun _ _ heq => heq ▸ .pure rfl
  obtain ⟨hvalue, -, hevents⟩ := halike world other ⟨henvs, hbacks, hothers⟩
  exact ⟨hvalue.symm, hevents⟩

structure Setting where
  time : Nat
  drawn : Nat
  served : Nat

def depotShell (speed : Nat) : Shell Setting where
  config := .default
  collaborators :=
    { now := fun env => speed * env.time
      freshId := fun env => (.ofNat env.drawn, { env with drawn := env.drawn + 1 })
      locate := fun _ _ env => (.ok none, { env with time := env.time + 1 })
      find := fun _ env =>
        (.ok (some (.provider ⟨"depot", .ofNat 9, false⟩)), { env with time := env.time + 1 })
      ping := fun _ env => (.ok (), { env with time := env.time + 1 })
      invoke := fun _ work _ _ env =>
        (.ok (some (work.mapCore fun core =>
          (core.mapContext (·.put "served" (.ofNat (env.served + 1)))).setStatus .done)),
          { env with served := env.served + 1 })
      exclusion := none }

def order : Work :=
  let reserve := (Signature.net "reserve" "Depot").withRole .prepare
  let deliver := Signature.net "deliver" "Depot"
  ⟨(Core.fresh (.ofNat 1) "order").mapControl
    ({ · with fidelities := .ofSignatures [reserve, deliver] }), .task none []⟩

def orderTwice : Caller Bool :=
  .dispatch true ⟨0, none, none, []⟩ order fun ended =>
    .dispatch false ⟨0, none, none, []⟩ (ended.work.mapCore (·.setStatus .initial)) fun _ => .done

theorem Caller.run_cached_order :
    let cached := orderTwice.run (fun _ => depotShell 1) ⟨⟨0, 10, 0⟩, .empty 20 1000⟩
    let uncached := orderTwice.run (fun _ => depotShell 7) ⟨⟨5, 50, 0⟩, .empty 0 0⟩
    let searches (events : List Event) := events.countP fun | .found .. => true | _ => false
    let calls (events : List Event) := events.countP fun | .invoked .. => true | _ => false
    (uncached.value = cached.value ∧
      SameHistory (fun _ _ => True) cached.events uncached.events) ∧
      searches cached.events = 2 ∧ searches uncached.events = 4 ∧
      calls cached.events = 4 ∧ calls uncached.events = 4 ∧
      cached.value.map (·.work.core.context.int "served") = [2, 4] := by
  let depot : Option Handle := some (.provider ⟨"depot", .ofNat 9, false⟩)
  let directory : Directory := ⟨fun _ => .ok none, fun _ => .ok depot⟩
  let envs (env other : Setting) : Prop := env.served = other.served
  have hcoupled : Coupled directory (fun _ _ => True) envs (depotShell 1).collaborators
      (depotShell 7).collaborators :=
    { left := fun _ => ⟨fun _ h => ⟨rfl, h⟩, fun _ _ h => ⟨rfl, h⟩, fun _ _ h => ⟨rfl, h⟩⟩
      right := fun _ => ⟨fun _ h => ⟨rfl, h⟩, fun _ _ h => ⟨rfl, h⟩, fun _ _ h => ⟨rfl, h⟩⟩
      freshId := fun h => ⟨trivial, h⟩
      invoke := by
        intro provider work twin txn args env other htwin henvs
        have hserved : other.served = env.served := Eq.symm henvs
        obtain ⟨⟨id, -, hcore⟩, hbody⟩ := htwin
        refine ⟨.ok (.some ⟨⟨id, ⟨trivial, fun hid => ?_⟩, ?_⟩, hbody⟩), congrArg (· + 1) henvs⟩
        · exact hid.trans (congrArg Core.id hcore)
        · simp only [Work.mapCore, hcore, hserved]
          rfl
      exclusion := .none }
  exact ⟨run_cached (fun _ => trivial) (fun _ => hcoupled) (fun _ => ⟨rfl, rfl⟩) orderTwice rfl
    (.empty directory 20 1000) (.empty directory 0 0), by decide +kernel, by decide +kernel,
    by decide +kernel, by decide +kernel, by decide +kernel⟩

end ServiceShell
