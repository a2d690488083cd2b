import ServiceShell.Proofs.EveryTrail
/-!
The reports of a submission are a complete log in post-order: one for every dispatch that came past
the depth guard, behind those of the dispatches inside of it, that of the root last, and then one
flush.
-/
namespace ServiceShell

namespace Event

def announced? : Event → Option (Nat × Work)
  | dispatched depth unit => some (depth, unit)
  | _ => none

def report? : Event → Option TraceEntry
  | recorded entry => some entry
  | _ => none

end Event

namespace Trail
variable {σ : Type} {shell : Shell σ} {trail : Trail}

def announced? : Trail → Option (Nat × Work)
  | reported _ passage _ _ => some (passage.call.depth, passage.work)
  | _ => none

theorem eventsOf_eq_flatMap (trails : List Trail) : eventsOf trails = trails.flatMap events := by
  induction trails with
  | nil => rfl
  | cons trail rest ih => simp only [eventsOf, ih, List.flatMap_cons]

theorem nodesOf_eq_flatMap (trails : List Trail) : nodesOf trails = trails.flatMap nodes := by
  induction trails with
  | nil => rfl
  | cons trail rest ih => simp only [nodesOf, ih, List.flatMap_cons]

/-- The reports stand in the order of the tree. -/
theorem Faithful.reports (h : trail.Faithful shell) :
    trail.events.filterMap Event.report? = trail.nodes.filterMap Trail.report? := by
  induction h with
  | own hinterior =>
    rename_i event
    cases event <;> first | rfl | cases hinterior
  | refused => rfl
  | @reported link passage inside entry _ _ _ _ _ ih =>
    simp only [events, nodes, List.filterMap_cons, Event.report?, List.filterMap_append,
      List.filterMap_nil, Trail.report?, eventsOf_eq_flatMap, nodesOf_eq_flatMap,
      List.filterMap_flatMap]
    rw [List.flatMap_congr ih]

/-- Nothing is dispatched that is not in the tree. -/
theorem Faithful.announced (h : trail.Faithful shell) :
    (trail.events.filterMap Event.announced?).Perm (trail.nodes.filterMap Trail.announced?) := by
  induction h with
  | own hinterior =>
    rename_i event
    cases event <;> first | exact .nil | cases hinterior
  | refused => exact .nil
  | @reported link passage inside entry _ _ _ _ _ ih =>
    simp only [events, nodes, List.filterMap_cons, Event.announced?, List.filterMap_append,
      List.filterMap_nil, Trail.announced?, eventsOf_eq_flatMap, nodesOf_eq_flatMap,
      List.filterMap_flatMap, List.append_nil]
    exact ((List.Perm.flatMap_left inside ih).cons _).trans (List.perm_append_singleton _ _).symm

theorem Faithful.unflushed (h : trail.Faithful shell) : Event.flushed ∉ trail.events := by
  induction h with
  | own hinterior =>
    intro hmem
    obtain rfl := List.mem_singleton.mp hmem
    cases hinterior
  | refused => simp [events]
  | reported _ _ _ _ _ ih =>
    simpa [events, eventsOf_eq_flatMap] using ih

theorem made_of_mem_nodes {node : Trail} (h : node ∈ trail.nodes) :
    ∃ link passage, trail.made? = some (link, passage) := by
  cases trail with
  | own event => cases h
  | refused link passage error => exact ⟨link, passage, rfl⟩
  | reported link passage inside entry => exact ⟨link, passage, rfl⟩

theorem Faithful.node (h : trail.Faithful shell) : ∀ node ∈ trail.nodes,
    node.Faithful shell ∧ ∃ link passage, node.made? = some (link, passage) := by
  induction h with
  | own => simp [nodes]
  | @refused link passage error hdepth hoccurs =>
    refine List.forall_mem_singleton.mpr ⟨.refused hdepth hoccurs, link, passage, rfl⟩
  | @reported link passage inside entry hdepth hoccurs hreports hinside hmakes ih =>
    intro node hnode
    rw [nodes, nodesOf_eq_flatMap, List.mem_append, List.mem_flatMap, List.mem_singleton] at hnode
    obtain ⟨trail, htrail, hnode⟩ | rfl := hnode
    · exact ih trail htrail node hnode
    · exact ⟨.reported hdepth hoccurs hreports hinside hmakes, link, passage, rfl⟩

theorem getLast?_reports {entry : TraceEntry} (h : trail.report? = some entry) :
    (trail.nodes.filterMap Trail.report?).getLast? = some entry := by
  cases trail with
  | reported link passage inside other =>
    rw [nodes, List.filterMap_append, List.filterMap_cons]
    simpa [report?] using h
  | _ => cases h

/-- What a node of a tree tells of its dispatch: it was reported unless it was too deep, under the
id and the status that its unit ended with, and as aborted just where an error stopped it. -/
structure Tells (shell : Shell σ) (node : Trail) (passage : Passage) : Prop where
  occurs : passage.Occurs shell node.events
  reported : (∃ entry, node.report? = some entry) ↔
    passage.call.depth ≤ shell.config.maxDelegationDepth
  status : ∀ entry, node.report? = some entry →
    entry.unit = passage.ended.work.core.id ∧ entry.status = passage.ended.work.core.status ∧
      (entry.route = "aborted" ↔ ∃ error, passage.ended.result = .error error)

theorem Faithful.tells (h : trail.Faithful shell) {link : Link} {passage : Passage}
    (hmade : trail.made? = some (link, passage)) : trail.Tells shell passage := by
  have habort (route : Route) : route.text = "aborted" ↔ route = .aborted := by
    cases route <;> decide
  cases h with
  | own => cases hmade
  | refused hdepth hoccurs =>
    obtain ⟨rfl, rfl⟩ := Prod.mk.inj (Option.some.inj hmade)
    exact ⟨hoccurs, by simpa [report?] using hdepth, by simp [report?]⟩
  | reported hdepth hoccurs hreports =>
    obtain ⟨rfl, rfl⟩ := Prod.mk.inj (Option.some.inj hmade)
    refine ⟨hoccurs, iff_of_true ⟨_, rfl⟩ hdepth, fun other hother => ?_⟩
    obtain rfl := Option.some.inj hother
    obtain ⟨now, route, rfl, hroute⟩ := hreports
    exact ⟨rfl, rfl, (habort route).trans hroute⟩

end Trail

/-- The history of a submission is the log of the tree of its dispatches. -/
structure IsLog {σ : Type} (shell : Shell σ) (call : Call) (work : Work) (ended : Dispatched)
    (trail : Trail) (events : List Event) : Prop where
  root : trail.Of shell .request ⟨call, work, Shell.prepare call.args work, ended⟩
  flushed : Event.flushed ∉ trail.events ∧
    ∃ notes : List Note, events = trail.events ++ .flushed :: notes.map .note
  announced : (events.filterMap Event.announced?).Perm (trail.nodes.filterMap Trail.announced?)
  /-- A collector takes the reports of the tree, each behind those inside of it, and one flush. -/
  absorbed : ∀ collector : Collector, collector.absorb events =
    ⟨collector.entries ++ trail.nodes.filterMap Trail.report?, collector.flushes + 1⟩
  last : ∃ entry, trail.report? = some entry ∧
    (trail.nodes.filterMap Trail.report?).getLast? = some entry
  nodes : ∀ node ∈ trail.nodes, ∃ link passage,
    node.made? = some (link, passage) ∧ node.Tells shell passage

theorem Collector.absorb_append (collector : Collector) (events later : List Event) :
    collector.absorb (events ++ later) = (collector.absorb events).absorb later :=
  List.foldl_append

theorem Collector.absorb_unflushed (collector : Collector) {events : List Event}
    (h : Event.flushed ∉ events) : collector.absorb events =
      ⟨collector.entries ++ events.filterMap Event.report?, collector.flushes⟩ := by
  induction events generalizing collector with
  | nil => simp [absorb]
  | cons event rest ih =>
    obtain ⟨hevent, hrest⟩ := not_or.mp fun hmem => h (List.mem_cons.mpr hmem)
    have happend := collector.absorb_append [event] rest
    rw [List.singleton_append] at happend
    rw [happend, ih _ hrest]
    cases event with
    | recorded entry =>
      simp only [absorb, List.foldl_cons, List.foldl_nil, record, List.filterMap_cons,
        Event.report?, List.append_assoc, List.singleton_append]
    | flushed => exact absurd rfl hevent
    | _ => rfl

namespace Shell
variable {σ : Type} (shell : Shell σ)

theorem dispatch_isLog (call : Call) (hroot : call.depth = 0) (work : Work) (world : World σ) :
    let run := shell.dispatch call work world
    ∃ trail, ∀ notes : List Note,
      IsLog shell call work run.value trail (run.events ++ notes.map .note) := by
  obtain ⟨trail, hevents, hof⟩ := shell.dispatch_trail call work world
  have hfaithful := hof.faithful
  have hreports : (trail.nodes.filterMap Trail.report?) = trail.events.filterMap Event.report? :=
    hfaithful.reports.symm
  obtain ⟨entry, hentry⟩ := (hfaithful.tells hof.made).reported.mpr (hroot ▸ Nat.zero_le _)
  refine ⟨trail, fun notes => ?_⟩
  have hunannounced : (Event.flushed :: notes.map .note).filterMap Event.announced? = [] := by
    simp [Event.announced?]
  have hunreported : (notes.map Event.note).filterMap Event.report? = [] := by
    simp [Event.report?]
  have hunflushed : Event.flushed ∉ notes.map Event.note := by simp
  rw [hevents, List.append_assoc, List.singleton_append]
  refine ⟨hof, ⟨hfaithful.unflushed, notes, rfl⟩, ?_, fun collector => ?_,
    ⟨entry, hentry, trail.getLast?_reports hentry⟩, fun node hnode => ?_⟩
  · rw [List.filterMap_append, hunannounced, List.append_nil]
    exact hfaithful.announced
  · have hflush (collector : Collector) : collector.absorb (.flushed :: notes.map .note) =
        collector.flush.absorb (notes.map .note) := rfl
    rw [Collector.absorb_append, Collector.absorb_unflushed _ hfaithful.unflushed, hreports, hflush,
      Collector.absorb_unflushed _ hunflushed, hunreported, List.append_nil]
    rfl
  · obtain ⟨hnode, link, passage, hmade⟩ := hfaithful.node node hnode
    exact ⟨link, passage, hmade, hnode.tells hmade⟩

theorem settle_apply (ended : Dispatched) (world : World σ) :
    ∃ notes : List Note, settle ended world = ⟨ended.work, world, notes.map .note⟩ := by
  obtain ⟨unit, result⟩ := ended
  cases result with
  | ok => exact ⟨[], rfl⟩
  | error e => exact ⟨[.returnedWithError unit.name e], rfl⟩

/-- However a unit is handed in, and whatever becomes of it, the reports are a complete log of its
dispatches in post-order, with one flush behind them. -/
theorem submissions_logged (work : Work) (txn : Option Transaction) (provider : String)
    (args : List Argument) (world : World σ) :
    (let run := shell.trySubmit work txn args world
      ∃ trail, IsLog shell ⟨0, txn, none, args⟩ work run.value trail run.events) ∧
    (let run := shell.submit work txn args world
      ∃ ended trail, run.value = ended.work ∧
        IsLog shell ⟨0, txn, none, args⟩ work ended trail run.events) ∧
    (let run := shell.submitTo work txn provider args world
      ∃ ended trail, run.value = ended.work ∧
        IsLog shell ⟨0, txn, some provider, args⟩ work ended trail run.events) := by
  have hsettled (call : Call) (hroot : call.depth = 0) :
      let run := (shell.dispatch call work >>= settle) world
      ∃ ended trail, run.value = ended.work ∧ IsLog shell call work ended trail run.events := by
    obtain ⟨trail, hlog⟩ := shell.dispatch_isLog call hroot work world
    obtain ⟨notes, hsettle⟩ := settle_apply (shell.dispatch call work world).value
      (shell.dispatch call work world).world
    refine ⟨(shell.dispatch call work world).value, trail, ?_, ?_⟩
    · rw [Run.bind_apply, hsettle]
    · rw [Run.bind_apply, hsettle]
      exact hlog notes
  refine ⟨?_, hsettled ⟨0, txn, none, args⟩ rfl, hsettled ⟨0, txn, some provider, args⟩ rfl⟩
  obtain ⟨trail, hlog⟩ := shell.dispatch_isLog ⟨0, txn, none, args⟩ rfl work world
  refine ⟨trail, ?_⟩
  rw [← List.append_nil (shell.trySubmit work txn args world).events]
  exact hlog []

end Shell
end ServiceShell
