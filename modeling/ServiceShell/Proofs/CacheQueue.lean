import Mathlib.Data.List.Nodup
import Mathlib.Data.List.Perm.Subperm
import ServiceShell.Cache
/-!
The cache against a queue that keeps its loads in the order in which they came. The queue never
looks for the oldest load and drops nothing when it is read; both give the same answers.
-/
namespace ServiceShell

inductive Request where
  | insert (signature : Signature) (provider : Provider)
  | get (signature : Signature)
  | invalidate (signature : Signature)
  | clear
  | advance (milliseconds : Nat)

def insertTimes : Nat → List Request → List Nat
  | _, [] => []
  | now, .insert .. :: rest => now :: insertTimes now rest
  | now, .advance n :: rest => insertTimes (now + n) rest
  | now, .get _ :: rest | now, .invalidate _ :: rest | now, .clear :: rest => insertTimes now rest

def Cache.serve : Request → Nat × Cache → Nat × Cache
  | .insert signature provider, (now, cache) =>
    (now, cache.insert now signature.service provider)
  | .get signature, (now, cache) => (now, (cache.get now signature.service).2)
  | .invalidate signature, (now, cache) => (now, (cache.invalidate signature.service).2)
  | .clear, (now, cache) => (now, cache.clear)
  | .advance n, (now, cache) => (now + n, cache)

def Cache.serveAll : List Request → Nat × Cache → Nat × Cache
  | [], state => state
  | request :: rest, state => serveAll rest (serve request state)

structure Queued where
  signature : Signature
  provider : Provider
  loadedAt : Nat

/-- Signatures for the same operation of the same service; access, role and target do not count. -/
def Signature.sameService (a b : Signature) : Bool :=
  a.type = b.type && a.selector = b.selector && a.provider = b.provider

structure LoadQueue where
  capacity : Nat
  ttl : Nat
  entries : List Queued

namespace LoadQueue

def empty (capacity ttl : Nat) : LoadQueue := ⟨capacity, ttl, []⟩

def isVisible (queue : LoadQueue) (now : Nat) (entry : Queued) : Bool :=
  now - entry.loadedAt < queue.ttl

def get? (queue : LoadQueue) (now : Nat) (signature : Signature) : Option Provider :=
  (queue.entries.find? fun entry =>
    entry.signature.sameService signature && queue.isVisible now entry).map Queued.provider

/-- What stays in front of a new entry: what has expired goes, and the older entry of an equal
signature, or else the first entry if the queue is full. -/
def kept (queue : LoadQueue) (now : Nat) (signature : Signature) : List Queued :=
  let live := queue.entries.filter (queue.isVisible now)
  if live.any (·.signature.sameService signature) then
    live.filter fun entry => !entry.signature.sameService signature
  else if queue.capacity ≤ live.length then live.tail
  else live

def insert (queue : LoadQueue) (now : Nat) (signature : Signature) (provider : Provider) :
    LoadQueue :=
  if queue.capacity = 0 then queue
  else { queue with entries := queue.kept now signature ++ [⟨signature, provider, now⟩] }

def invalidate (queue : LoadQueue) (signature : Signature) : LoadQueue :=
  { queue with
    entries := queue.entries.filter fun entry => !entry.signature.sameService signature }

def clear (queue : LoadQueue) : LoadQueue := { queue with entries := [] }

def serve : Request → Nat × LoadQueue → Nat × LoadQueue
  | .insert signature provider, (now, queue) => (now, queue.insert now signature provider)
  | .get _, state => state
  | .invalidate signature, (now, queue) => (now, queue.invalidate signature)
  | .clear, (now, queue) => (now, queue.clear)
  | .advance n, (now, queue) => (now + n, queue)

def serveAll : List Request → Nat × LoadQueue → Nat × LoadQueue
  | [], state => state
  | request :: rest, state => serveAll rest (serve request state)

end LoadQueue

theorem Signature.sameService_iff (a b : Signature) :
    a.sameService b = true ↔ a.service = b.service := by
  simp only [Signature.sameService, Bool.and_eq_true, decide_eq_true_eq]
  constructor
  · rintro ⟨⟨ht, hs⟩, hp⟩
    cases ha : a.service
    cases hb : b.service
    simp_all [Signature.type, Signature.selector, Signature.provider]
  · intro h
    simp [Signature.type, Signature.selector, Signature.provider, h]

def Queued.load (entry : Queued) : Load := ⟨entry.signature.service, entry.provider, entry.loadedAt⟩

namespace LoadQueue

def loads (queue : LoadQueue) : List Load := queue.entries.map Queued.load

theorem map_load_filter (entries : List Queued) (signature : Signature) :
    (entries.filter fun entry => !entry.signature.sameService signature).map Queued.load =
      (entries.map Queued.load).filter (·.service ≠ signature.service) := by
  rw [List.filter_map]
  congr 1
  apply List.filter_congr
  intro entry _
  have h := Signature.sameService_iff entry.signature signature
  by_cases hs : entry.signature.service = signature.service <;> simp_all [Queued.load]

def keptLoads (capacity : Nat) (service : Service) (live : List Load) : List Load :=
  if service ∈ live.map Load.service then live.filter (·.service ≠ service)
  else if capacity ≤ live.length then live.tail
  else live

theorem kept_loads (queue : LoadQueue) (now : Nat) (signature : Signature) :
    (queue.kept now signature).map Queued.load =
      keptLoads queue.capacity signature.service
        (queue.loads.filter (·.isFresh now queue.ttl)) := by
  have hlive : (queue.entries.filter (queue.isVisible now)).map Queued.load =
      queue.loads.filter (·.isFresh now queue.ttl) := by
    rw [loads, List.filter_map]
    rfl
  have hany : (queue.entries.filter (queue.isVisible now)).any
        (·.signature.sameService signature) = true ↔
      signature.service ∈ (queue.loads.filter (·.isFresh now queue.ttl)).map Load.service := by
    rw [← hlive]
    simp only [List.any_eq_true, Signature.sameService_iff, List.mem_map]
    constructor
    · rintro ⟨entry, he, hs⟩
      exact ⟨entry.load, ⟨entry, he, rfl⟩, hs⟩
    · rintro ⟨load, ⟨entry, he, rfl⟩, hs⟩
      exact ⟨entry, he, hs⟩
  unfold kept keptLoads
  rw [← hlive] at hany ⊢
  simp only [hany, List.length_map]
  split
  · exact map_load_filter _ signature
  · split <;> simp

theorem loads_insert {queue : LoadQueue} (hcap : queue.capacity ≠ 0) (now : Nat)
    (signature : Signature) (provider : Provider) :
    (queue.insert now signature provider).loads =
      keptLoads queue.capacity signature.service (queue.loads.filter (·.isFresh now queue.ttl)) ++
        [⟨signature.service, provider, now⟩] := by
  simp only [insert, hcap, if_false, loads, List.map_append]
  rw [kept_loads]
  rfl

theorem loads_invalidate (queue : LoadQueue) (signature : Signature) :
    (queue.invalidate signature).loads = queue.loads.filter (·.service ≠ signature.service) :=
  map_load_filter queue.entries signature

theorem eq_of_service {loads : List Load} (hd : (loads.map Load.service).Nodup) {a b : Load}
    (ha : a ∈ loads) (hb : b ∈ loads) (h : a.service = b.service) : a = b :=
  List.inj_on_of_nodup_map hd ha hb h

theorem length_keptLoads {capacity : Nat} {service : Service} {live : List Load}
    (hpos : 0 < capacity) (hlen : live.length ≤ capacity) :
    (keptLoads capacity service live).length < capacity := by
  unfold keptLoads
  split
  · rename_i hs
    obtain ⟨load, hload, rfl⟩ := List.mem_map.mp hs
    have h : (live.filter (·.service ≠ load.service)).length < live.length :=
      List.length_filter_lt_length_iff_exists.mpr ⟨load, hload, by simp⟩
    omega
  · split
    · rw [List.length_tail]
      omega
    · omega

theorem keptLoads_sublist (capacity : Nat) (service : Service) (live : List Load) :
    (keptLoads capacity service live).Sublist live := by
  unfold keptLoads
  split
  · exact List.filter_sublist
  · split
    · exact List.tail_sublist live
    · exact List.Sublist.refl live

theorem service_notMem_keptLoads (capacity : Nat) (service : Service) (live : List Load) :
    service ∉ (keptLoads capacity service live).map Load.service := by
  unfold keptLoads
  split
  · simp
  · rename_i hs
    split
    · intro h
      exact hs ((List.Sublist.map _ (List.tail_sublist live)).subset h)
    · exact hs

theorem keptLoads_live_sublist (queue : LoadQueue) (now : Nat) (service : Service) :
    (keptLoads queue.capacity service (queue.loads.filter (·.isFresh now queue.ttl))).Sublist
      queue.loads :=
  (keptLoads_sublist queue.capacity service _).trans List.filter_sublist

theorem distinct_insert {queue : LoadQueue} (hzero : queue.capacity ≠ 0) {now : Nat}
    {signature : Signature} {provider : Provider} (h : (queue.loads.map Load.service).Nodup) :
    ((queue.insert now signature provider).loads.map Load.service).Nodup := by
  have hkept := queue.keptLoads_live_sublist now signature.service
  rw [loads_insert hzero, List.map_append]
  refine List.nodup_append.mpr ⟨(hkept.map _).nodup h, List.nodup_singleton _, ?_⟩
  rintro other hother _ hnew rfl
  obtain rfl := List.mem_singleton.mp hnew
  exact service_notMem_keptLoads queue.capacity signature.service _ hother

theorem sorted_insert {queue : LoadQueue} (hzero : queue.capacity ≠ 0) {now : Nat}
    {signature : Signature} {provider : Provider}
    (h : queue.loads.Pairwise fun a b => a.loadedAt < b.loadedAt)
    (hpast : ∀ load ∈ queue.loads, load.loadedAt < now) :
    (queue.insert now signature provider).loads.Pairwise fun a b => a.loadedAt < b.loadedAt := by
  have hkept := queue.keptLoads_live_sublist now signature.service
  rw [loads_insert hzero]
  refine List.pairwise_append.mpr ⟨h.sublist hkept, List.pairwise_singleton _ _, ?_⟩
  intro load hload _ hnew
  obtain rfl := List.mem_singleton.mp hnew
  exact hpast load (hkept.subset hload)

theorem length_insert {queue : LoadQueue} (hzero : queue.capacity ≠ 0) {now : Nat}
    {signature : Signature} {provider : Provider} (h : queue.loads.length ≤ queue.capacity) :
    (queue.insert now signature provider).loads.length ≤ queue.capacity := by
  have hlive : (queue.loads.filter (·.isFresh now queue.ttl)).length ≤ queue.capacity :=
    Nat.le_trans (List.length_filter_le ..) h
  rw [loads_insert hzero, List.length_append, List.length_singleton]
  exact length_keptLoads (Nat.pos_of_ne_zero hzero) hlive

end LoadQueue

namespace Cache

theorem oldest?_isSome {loads : List Load} (h : loads ≠ []) :
    ∃ load, oldest? loads = some load := by
  cases loads with
  | nil => exact absurd rfl h
  | cons first rest =>
    simp only [oldest?]
    split
    · split <;> exact ⟨_, rfl⟩
    · exact ⟨first, rfl⟩

theorem oldest?_spec {loads : List Load} {load : Load} (h : oldest? loads = some load) :
    load ∈ loads ∧ ∀ other ∈ loads, load.loadedAt ≤ other.loadedAt := by
  induction loads generalizing load with
  | nil => simp [oldest?] at h
  | cons first rest ih =>
    simp only [oldest?] at h
    cases hr : oldest? rest with
    | none =>
      have hrest : rest = [] := by
        by_contra hne
        obtain ⟨other, ho⟩ := oldest?_isSome hne
        simp [ho] at hr
      simp only [hr, Option.some.injEq] at h
      subst h hrest
      simp
    | some other =>
      obtain ⟨hmem, hmin⟩ := ih hr
      simp only [hr] at h
      split at h
      · rename_i hle
        obtain rfl := Option.some.inj h
        refine ⟨List.mem_cons_self, ?_⟩
        intro x hx
        obtain rfl | hx := List.mem_cons.mp hx
        · exact Nat.le_refl _
        · exact Nat.le_trans hle (hmin x hx)
      · rename_i hlt
        obtain rfl := Option.some.inj h
        refine ⟨List.mem_cons_of_mem _ hmem, ?_⟩
        intro x hx
        obtain rfl | hx := List.mem_cons.mp hx
        · omega
        · exact hmin x hx

/-- In strict order of load times the oldest load is the first one. -/
theorem oldest?_of_sorted {loads rest : List Load} {first : Load}
    (hmem : ∀ load, load ∈ loads ↔ load ∈ first :: rest)
    (hsorted : (first :: rest).Pairwise fun a b => a.loadedAt < b.loadedAt) :
    oldest? loads = some first := by
  have hfirst : first ∈ loads := (hmem first).mpr List.mem_cons_self
  obtain ⟨load, hload⟩ := oldest?_isSome (List.ne_nil_of_mem hfirst)
  obtain ⟨hin, hmin⟩ := oldest?_spec hload
  obtain rfl | hrest := List.mem_cons.mp ((hmem load).mp hin)
  · exact hload
  · have hlt := (List.pairwise_cons.mp hsorted).1 load hrest
    have hle := hmin first hfirst
    omega

theorem find?_eq_none_iff (cache : Cache) (service : Service) :
    cache.find? service = none ↔ service ∉ cache.loads.map Load.service := by
  simp [find?, List.find?_eq_none]

theorem find?_some {cache : Cache} {service : Service} {load : Load}
    (h : cache.find? service = some load) : load ∈ cache.loads ∧ load.service = service :=
  ⟨List.mem_of_find?_eq_some h, by simpa using List.find?_some h⟩

theorem makeRoom_eq (cache : Cache) (service : Service) :
    ∃ loads, cache.makeRoom service = { cache with loads } ∧ loads.Sublist cache.loads := by
  unfold makeRoom
  split
  · split
    · exact ⟨_, rfl, List.filter_sublist⟩
    · exact ⟨_, rfl, List.Sublist.refl _⟩
  · exact ⟨_, rfl, List.Sublist.refl _⟩

theorem mem_remove (cache : Cache) (service : Service) (load : Load) :
    load ∈ (cache.remove service).loads ↔ load ∈ cache.loads ∧ load.service ≠ service := by
  simp [remove]

theorem insert_eq {cache : Cache} (hzero : cache.capacity ≠ 0) (now : Nat) (service : Service)
    (provider : Provider) :
    let room := ((cache.purge now).makeRoom service).remove service
    cache.insert now service provider =
        { cache with loads := room.loads ++ [⟨service, provider, now⟩] } ∧
      room.loads.Sublist cache.loads := by
  intro room
  obtain ⟨loads, hmake, hloads⟩ := makeRoom_eq (cache.purge now) service
  have hroom : room = { cache with loads := loads.filter (·.service ≠ service) } := by
    simp only [room, remove, hmake]
    rfl
  have hinsert : cache.insert now service provider =
      { room with loads := room.loads ++ [⟨service, provider, now⟩] } := if_neg hzero
  rw [hinsert, hroom]
  exact ⟨rfl, List.filter_sublist.trans (hloads.trans List.filter_sublist)⟩

/-- A cache that holds the live loads of a queue keeps the same ones as the queue does. -/
theorem mem_room {cache : Cache} {live : List Load} (service : Service)
    (hmem : ∀ load, load ∈ cache.loads ↔ load ∈ live) (hnodup : cache.loads.Nodup)
    (hdistinct : (live.map Load.service).Nodup)
    (hsorted : live.Pairwise fun a b => a.loadedAt < b.loadedAt) (hpos : 0 < cache.capacity)
    (load : Load) :
    load ∈ ((cache.makeRoom service).remove service).loads ↔
      load ∈ LoadQueue.keptLoads cache.capacity service live := by
  have hlength : cache.loads.length = live.length :=
    ((List.perm_ext_iff_of_nodup hnodup (List.Nodup.of_map _ hdistinct)).mpr hmem).length_eq
  have hfind : cache.find? service = none ↔ service ∉ live.map Load.service := by
    simp [find?_eq_none_iff, hmem]
  unfold makeRoom LoadQueue.keptLoads
  simp only [Option.isNone_iff_eq_none, hfind, hlength]
  by_cases hs : service ∈ live.map Load.service
  · simp [hs, mem_remove, hmem]
  · have hother : ∀ x ∈ live, x.service ≠ service := fun x hx e =>
      hs (List.mem_map.mpr ⟨x, hx, e⟩)
    by_cases hfull : cache.capacity ≤ live.length
    · cases live with
      | nil => simp at hfull; omega
      | cons first rest =>
        have hold := oldest?_of_sorted hmem hsorted
        have hfirst : ∀ x ∈ rest, x.service ≠ first.service := by
          intro x hx e
          exact (List.nodup_cons.mp hdistinct).1 (List.mem_map.mpr ⟨x, hx, e⟩)
        simp only [hs, hfull, hold, mem_remove, hmem, not_false_eq_true, and_self, if_true,
          if_false, List.mem_cons, List.tail_cons]
        constructor
        · rintro ⟨⟨rfl | hx, hne⟩, -⟩
          · exact absurd rfl hne
          · exact hx
        · intro hx
          exact ⟨⟨Or.inr hx, hfirst load hx⟩, hother load (List.mem_cons_of_mem _ hx)⟩
    · simp only [hs, hfull, mem_remove, hmem, not_false_eq_true, and_false, if_false]
      exact ⟨fun h => h.1, fun h => ⟨h, hother load h⟩⟩

end Cache

/-- The cache holds loads of the queue, and all of those that have not expired. The queue is in
strict order of load times, and no service occurs twice. -/
structure Cache.Mirrors (now : Nat) (cache : Cache) (queue : LoadQueue) : Prop where
  capacity : cache.capacity = queue.capacity
  ttl : cache.ttl = queue.ttl
  subset : ∀ load ∈ cache.loads, load ∈ queue.loads
  fresh : ∀ load ∈ queue.loads, load.isFresh now queue.ttl → load ∈ cache.loads
  nodup : cache.loads.Nodup
  distinct : (queue.loads.map Load.service).Nodup
  sorted : queue.loads.Pairwise fun a b => a.loadedAt < b.loadedAt
  bounded : queue.loads.length ≤ queue.capacity

/-- The answer of a cache with one load for each service: the provider of a fresh load. -/
theorem Cache.get_eq_some_iff {cache : Cache} {service : Service} {now : Nat}
    (hone : ∀ a ∈ cache.loads, ∀ b ∈ cache.loads, a.service = b.service → a = b)
    (provider : Provider) :
    (cache.get now service).1 = some provider ↔
      ∃ load ∈ cache.loads, load.service = service ∧ load.isFresh now cache.ttl ∧
        load.provider = provider := by
  unfold get
  cases hf : cache.find? service with
  | none =>
    have hnot := (find?_eq_none_iff cache service).mp hf
    simp only [reduceCtorEq, false_iff]
    rintro ⟨load, hload, rfl, -⟩
    exact hnot (List.mem_map.mpr ⟨load, hload, rfl⟩)
  | some found =>
    obtain ⟨hmem, rfl⟩ := find?_some hf
    by_cases hfresh : found.isFresh now cache.ttl
    · simp only [hfresh, if_true, Option.some.injEq]
      constructor
      · rintro rfl
        exact ⟨found, hmem, rfl, hfresh, rfl⟩
      · rintro ⟨load, hload, hs, -, rfl⟩
        rw [hone load hload found hmem hs]
    · simp only [hfresh, if_false, reduceCtorEq, false_iff, Bool.false_eq_true]
      rintro ⟨load, hload, hs, hl, -⟩
      rw [hone load hload found hmem hs] at hl
      exact hfresh hl

theorem LoadQueue.get?_eq_some_iff {queue : LoadQueue} (signature : Signature) (now : Nat)
    (hdistinct : (queue.loads.map Load.service).Nodup) (provider : Provider) :
    queue.get? now signature = some provider ↔
      ∃ load ∈ queue.loads, load.service = signature.service ∧ load.isFresh now queue.ttl ∧
        load.provider = provider := by
  unfold get?
  rw [Option.map_eq_some_iff]
  constructor
  · rintro ⟨entry, hf, rfl⟩
    have hp := List.find?_some hf
    rw [Bool.and_eq_true, Signature.sameService_iff] at hp
    exact ⟨entry.load, List.mem_map.mpr ⟨entry, List.mem_of_find?_eq_some hf, rfl⟩, hp.1, hp.2, rfl⟩
  · rintro ⟨load, hload, hs, hfresh, rfl⟩
    obtain ⟨entry, hentry, rfl⟩ := List.mem_map.mp hload
    have hp : (entry.signature.sameService signature && queue.isVisible now entry) = true := by
      rw [Bool.and_eq_true, Signature.sameService_iff]
      exact ⟨hs, hfresh⟩
    have hsome : (queue.entries.find? fun entry =>
        entry.signature.sameService signature && queue.isVisible now entry).isSome :=
      List.find?_isSome.mpr ⟨entry, hentry, hp⟩
    obtain ⟨found, hfound⟩ := Option.isSome_iff_exists.mp hsome
    have hq := List.find?_some hfound
    rw [Bool.and_eq_true, Signature.sameService_iff] at hq
    have heq : found.load = entry.load := eq_of_service hdistinct
      (List.mem_map.mpr ⟨found, List.mem_of_find?_eq_some hfound, rfl⟩) hload (hq.1.trans hs.symm)
    exact ⟨found, hfound, congrArg Load.provider heq⟩

namespace Cache.Mirrors
open LoadQueue
variable {now : Nat} {cache : Cache} {queue : LoadQueue}

theorem size_le (h : cache.Mirrors now queue) : cache.size ≤ cache.capacity := by
  have hsub : cache.loads.length ≤ queue.loads.length :=
    (List.Nodup.subperm h.nodup h.subset).length_le
  rw [size, h.capacity]
  exact Nat.le_trans hsub h.bounded

theorem one_load (h : cache.Mirrors now queue) :
    ∀ a ∈ cache.loads, ∀ b ∈ cache.loads, a.service = b.service → a = b :=
  fun a ha b hb => eq_of_service h.distinct (h.subset a ha) (h.subset b hb)

theorem get_eq (h : cache.Mirrors now queue) (signature : Signature) :
    (cache.get now signature.service).1 = queue.get? now signature := by
  apply Option.ext
  intro provider
  rw [get_eq_some_iff h.one_load, get?_eq_some_iff signature now h.distinct, h.ttl]
  constructor
  · rintro ⟨load, hload, hrest⟩
    exact ⟨load, h.subset load hload, hrest⟩
  · rintro ⟨load, hload, hs, hfresh, hp⟩
    exact ⟨load, h.fresh load hload hfresh, hs, hfresh, hp⟩

theorem empty (capacity ttl now : Nat) :
    (Cache.empty capacity ttl).Mirrors now (LoadQueue.empty capacity ttl) where
  capacity := rfl
  ttl := rfl
  subset := by simp [Cache.empty]
  fresh := by simp [LoadQueue.empty, LoadQueue.loads]
  nodup := List.nodup_nil
  distinct := List.nodup_nil
  sorted := List.Pairwise.nil
  bounded := Nat.zero_le _

/-- Loads that have expired may go from the cache alone. -/
theorem remove_expired (h : cache.Mirrors now queue) {service : Service}
    (hexpired : ∀ load ∈ queue.loads, load.service = service → ¬ load.isFresh now queue.ttl) :
    (cache.remove service).Mirrors now queue where
  capacity := h.capacity
  ttl := h.ttl
  subset load hload := h.subset load ((mem_remove cache service load).mp hload).1
  fresh load hload hfresh := (mem_remove cache service load).mpr
    ⟨h.fresh load hload hfresh, fun hs => hexpired load hload hs hfresh⟩
  nodup := List.Nodup.filter _ h.nodup
  distinct := h.distinct
  sorted := h.sorted
  bounded := h.bounded

theorem get (h : cache.Mirrors now queue) (service : Service) :
    (cache.get now service).2.Mirrors now queue := by
  unfold Cache.get
  cases hf : cache.find? service with
  | none => exact h
  | some found =>
    obtain ⟨hmem, rfl⟩ := find?_some hf
    by_cases hfresh : found.isFresh now cache.ttl
    · simpa [hfresh] using h
    · simp only [hfresh, if_false, Bool.false_eq_true]
      apply h.remove_expired
      intro load hload hs
      rw [eq_of_service h.distinct hload (h.subset found hmem) hs, ← h.ttl]
      exact hfresh

theorem invalidate (h : cache.Mirrors now queue) (signature : Signature) :
    (cache.invalidate signature.service).2.Mirrors now (queue.invalidate signature) := by
  have hsub : (queue.loads.filter (·.service ≠ signature.service)).Sublist queue.loads :=
    List.filter_sublist
  constructor
  · exact h.capacity
  · exact h.ttl
  · intro load hload
    obtain ⟨hin, hne⟩ := (mem_remove cache signature.service load).mp hload
    rw [loads_invalidate]
    exact List.mem_filter.mpr ⟨h.subset load hin, by simpa using hne⟩
  · intro load hload hfresh
    rw [loads_invalidate] at hload
    obtain ⟨hin, hne⟩ := List.mem_filter.mp hload
    exact (mem_remove cache signature.service load).mpr
      ⟨h.fresh load hin hfresh, by simpa using hne⟩
  · exact List.Nodup.filter _ h.nodup
  · rw [loads_invalidate]
    exact List.Nodup.sublist (List.Sublist.map _ hsub) h.distinct
  · rw [loads_invalidate]
    exact List.Pairwise.sublist hsub h.sorted
  · rw [loads_invalidate]
    exact Nat.le_trans hsub.length_le h.bounded

theorem clear (h : cache.Mirrors now queue) : cache.clear.Mirrors now queue.clear where
  capacity := h.capacity
  ttl := h.ttl
  subset := by simp [Cache.clear]
  fresh := by simp [LoadQueue.clear, LoadQueue.loads]
  nodup := List.nodup_nil
  distinct := List.nodup_nil
  sorted := List.Pairwise.nil
  bounded := Nat.zero_le _

theorem advance (h : cache.Mirrors now queue) (n : Nat) : cache.Mirrors (now + n) queue :=
  { h with
    fresh := by
      intro load hload hfresh
      apply h.fresh load hload
      simp only [Load.isFresh, decide_eq_true_eq] at hfresh ⊢
      omega }

/-- What has not expired is in the cache exactly if it is in the queue. -/
theorem mem_purge (h : cache.Mirrors now queue) (load : Load) :
    load ∈ (cache.purge now).loads ↔ load ∈ queue.loads.filter (·.isFresh now queue.ttl) := by
  simp only [purge, List.mem_filter, h.ttl]
  constructor
  · exact fun hload => ⟨h.subset load hload.1, hload.2⟩
  · exact fun hload => ⟨h.fresh load hload.1 hload.2, hload.2⟩

/-- After an insert the cache and the queue hold the same loads. -/
theorem mem_insert (h : cache.Mirrors now queue) (hzero : queue.capacity ≠ 0)
    (signature : Signature) (provider : Provider) (load : Load) :
    load ∈ (cache.insert now signature.service provider).loads ↔
      load ∈ (queue.insert now signature provider).loads := by
  have hlive : (queue.loads.filter (·.isFresh now queue.ttl)).Sublist queue.loads :=
    List.filter_sublist
  have hcapacity : (cache.purge now).capacity = queue.capacity := h.capacity
  have hroom := mem_room signature.service h.mem_purge (List.Nodup.filter _ h.nodup)
    (List.Nodup.sublist (List.Sublist.map _ hlive) h.distinct)
    (List.Pairwise.sublist hlive h.sorted) (hcapacity ▸ Nat.pos_of_ne_zero hzero) load
  rw [hcapacity] at hroom
  rw [(insert_eq (h.capacity ▸ hzero) now signature.service provider).1, loads_insert hzero,
    List.mem_append, List.mem_append, hroom]

theorem insert (h : cache.Mirrors now queue) (signature : Signature) (provider : Provider)
    (hpast : ∀ load ∈ queue.loads, load.loadedAt < now) :
    (cache.insert now signature.service provider).Mirrors now
      (queue.insert now signature provider) := by
  by_cases hzero : queue.capacity = 0
  · simpa [Cache.insert, LoadQueue.insert, h.capacity, hzero] using h
  obtain ⟨hinsert, hroom⟩ :=
    insert_eq (h.capacity ▸ hzero : cache.capacity ≠ 0) now signature.service provider
  have hsame := h.mem_insert hzero signature provider
  have hcapacity : (queue.insert now signature provider).capacity = queue.capacity := by
    simp [LoadQueue.insert, hzero]
  have httl : (queue.insert now signature provider).ttl = queue.ttl := by
    simp [LoadQueue.insert, hzero]
  constructor
  · rw [hinsert, hcapacity]
    exact h.capacity
  · rw [hinsert, httl]
    exact h.ttl
  · exact fun load => (hsame load).mp
  · exact fun load hload _ => (hsame load).mpr hload
  · rw [hinsert]
    refine List.nodup_append.mpr ⟨hroom.nodup h.nodup, List.nodup_singleton _, ?_⟩
    rintro load hload _ hnew rfl
    obtain rfl := List.mem_singleton.mp hnew
    exact ((mem_remove _ signature.service _).mp hload).2 rfl
  · exact distinct_insert hzero h.distinct
  · exact sorted_insert hzero h.sorted hpast
  · exact hcapacity ▸ length_insert hzero h.bounded

end Cache.Mirrors
/-- One request, given that an insert comes later than all loads of the queue. -/
theorem Cache.Mirrors.serve {now : Nat} {cache : Cache} {queue : LoadQueue}
    (h : cache.Mirrors now queue) (request : Request)
    (hpast : ∀ time ∈ insertTimes now [request], ∀ load ∈ queue.loads, load.loadedAt < time) :
    (LoadQueue.serve request (now, queue)).1 = (Cache.serve request (now, cache)).1 ∧
      (Cache.serve request (now, cache)).2.Mirrors (Cache.serve request (now, cache)).1
        (LoadQueue.serve request (now, queue)).2 := by
  cases request with
  | insert signature provider =>
    exact ⟨rfl, h.insert signature provider (hpast now (by simp [insertTimes]))⟩
  | get signature => exact ⟨rfl, h.get signature.service⟩
  | invalidate signature => exact ⟨rfl, h.invalidate signature⟩
  | clear => exact ⟨rfl, h.clear⟩
  | advance n => exact ⟨rfl, h.advance n⟩

/-- Loads that are in the queue after a request were there before, or came in with it. -/
theorem LoadQueue.loadedAt_serve {now : Nat} {queue : LoadQueue} {request : Request} {load : Load}
    (h : load ∈ (serve request (now, queue)).2.loads) :
    load ∈ queue.loads ∨ load.loadedAt ∈ insertTimes now [request] := by
  cases request with
  | insert signature provider =>
    by_cases hzero : queue.capacity = 0
    · exact Or.inl (by simpa [serve, insert, hzero] using h)
    · rw [serve, loads_insert hzero, List.mem_append] at h
      obtain h | h := h
      · exact Or.inl (List.mem_of_mem_filter ((keptLoads_sublist _ _ _).subset h))
      · obtain rfl := List.mem_singleton.mp h
        exact Or.inr (by simp [insertTimes])
  | get signature => exact Or.inl h
  | invalidate signature =>
    rw [serve, loads_invalidate] at h
    exact Or.inl (List.mem_of_mem_filter h)
  | clear => simp [serve, clear, loads] at h
  | advance n => exact Or.inl h

theorem insertTimes_cons (request : Request) (rest : List Request) (now : Nat) (cache : Cache) :
    insertTimes now (request :: rest) =
      insertTimes now [request] ++ insertTimes (Cache.serve request (now, cache)).1 rest := by
  cases request <;> rfl

theorem Cache.Mirrors.serveAll (requests : List Request) {now : Nat} {cache : Cache}
    {queue : LoadQueue} (h : cache.Mirrors now queue)
    (htimes : (insertTimes now requests).Pairwise (· < ·))
    (hpast : ∀ time ∈ insertTimes now requests, ∀ load ∈ queue.loads, load.loadedAt < time) :
    (LoadQueue.serveAll requests (now, queue)).1 = (Cache.serveAll requests (now, cache)).1 ∧
      (Cache.serveAll requests (now, cache)).2.Mirrors (Cache.serveAll requests (now, cache)).1
        (LoadQueue.serveAll requests (now, queue)).2 := by
  induction requests generalizing now cache queue with
  | nil => exact ⟨rfl, h⟩
  | cons request rest ih =>
    rw [insertTimes_cons request rest now cache] at htimes hpast
    obtain ⟨-, hrest, hbefore⟩ := List.pairwise_append.mp htimes
    obtain ⟨hnow, hstep⟩ := h.serve request fun time ht =>
      hpast time (List.mem_append_left _ ht)
    have hnext : LoadQueue.serve request (now, queue) =
        ((Cache.serve request (now, cache)).1, (LoadQueue.serve request (now, queue)).2) := by
      rw [← hnow]
    simp only [Cache.serveAll, LoadQueue.serveAll]
    rw [hnext]
    apply ih hstep hrest
    -- a load of the queue is older than this request or came in with it
    intro time ht load hload
    obtain hold | hnew := LoadQueue.loadedAt_serve hload
    · exact hpast time (List.mem_append_right _ ht) load hold
    · exact hbefore _ hnew time ht

theorem LoadQueue.capacity_serveAll (requests : List Request) (state : Nat × LoadQueue) :
    (serveAll requests state).2.capacity = state.2.capacity := by
  induction requests generalizing state with
  | nil => rfl
  | cons request rest ih =>
    rw [serveAll, ih]
    cases request with
    | insert signature provider =>
      simp only [serve, insert]
      split <;> rfl
    | get signature => rfl
    | invalidate signature => rfl
    | clear => rfl
    | advance n => rfl

/-- After any requests in which the clock advances between two inserts, the cache answers what the
queue answers, and is not above its capacity. -/
theorem cache_get_eq_queue (capacity ttl start : Nat) (requests : List Request)
    (htimes : (insertTimes start requests).Pairwise (· < ·)) (signature : Signature) :
    let (now, cache) := Cache.serveAll requests (start, .empty capacity ttl)
    let (time, queue) := LoadQueue.serveAll requests (start, .empty capacity ttl)
    time = now ∧ (cache.get now signature.service).1 = queue.get? time signature ∧
      cache.size ≤ capacity := by
  obtain ⟨hnow, h⟩ := (Cache.Mirrors.empty capacity ttl start).serveAll requests htimes
    (by simp [LoadQueue.empty, LoadQueue.loads])
  have hcap := LoadQueue.capacity_serveAll requests (start, .empty capacity ttl)
  refine ⟨hnow, ?_, ?_⟩
  · rw [hnow]
    exact h.get_eq signature
  · have hsize := h.size_le
    rw [h.capacity, hcap] at hsize
    exact hsize

def refreshed : List Request :=
  [.insert (.net "add" "Adder") ⟨"first", .ofNat 1, false⟩, .advance 3,
    .insert (.net "sub" "Adder") ⟨"second", .ofNat 2, false⟩, .advance 1,
    .insert (.net "add" "Adder") ⟨"third", .ofNat 3, false⟩, .advance 1,
    .insert (.net "mul" "Adder") ⟨"fourth", .ofNat 4, false⟩, .advance 8]

theorem cache_get_eq_queue_refreshed :
    (insertTimes 0 refreshed).Pairwise (· < ·) ∧
      (let (now, cache) := Cache.serveAll refreshed (0, .empty 2 10)
      let (time, queue) := LoadQueue.serveAll refreshed (0, .empty 2 10)
      time = now ∧ (cache.get now ⟨"Adder", "add", .any⟩).1 = queue.get? time (.net "add" "Adder") ∧
        cache.size ≤ 2) ∧
      (Cache.serveAll refreshed (0, .empty 2 10)).2.loads.map Load.loadedAt = [4, 5] := by
  have htimes : (insertTimes 0 refreshed).Pairwise (· < ·) := by decide
  exact ⟨htimes, cache_get_eq_queue 2 10 0 refreshed htimes (.net "add" "Adder"), by decide⟩

end ServiceShell
