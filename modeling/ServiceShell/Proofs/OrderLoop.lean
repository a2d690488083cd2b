import ServiceShell.Proofs.Sortable
/-!
The loop that orders the children of a job, over the tables that it keeps: a counter for each child,
and the list of its consumers. A second form of the loop looks into the tables only where there is
an entry, takes from a counter only where something is left, and lets no child become ready or be
placed twice; for a valid job it is the same loop.
-/
namespace ServiceShell.Job

structure Tables where
  waiting : List Nat
  consumers : List (List Nat)

namespace Tables

def blank (count : Nat) : Tables := ⟨.replicate count 0, .replicate count []⟩

def enter? (tables : Tables) (edge : Edge) : Option Tables := do
  let waiting ← tables.waiting[edge.consumer]?
  let consumers ← tables.consumers[edge.producer]?
  return ⟨tables.waiting.set edge.consumer (waiting + 1),
    tables.consumers.set edge.producer (consumers ++ [edge.consumer])⟩

def ofEdges? (count : Nat) (edges : List Edge) : Option Tables :=
  edges.foldlM enter? (blank count)

end Tables

namespace Progress

/-- Settles an edge into `child`; nothing if the child has no counter, if its counter is down
already, or if the child has been ready before. -/
def release? (progress : Progress) (child : Nat) : Option Progress :=
  match progress.waiting[child]? with
  | some (left + 1) =>
    if left ≠ 0 then some { progress with waiting := progress.waiting.set child left }
    else if child ∈ progress.placed ++ progress.ready then none
    else some { progress with
      waiting := progress.waiting.set child left
      ready := insertReady child progress.ready }
  | _ => none

/-- Places the first child that is ready; nothing if it has been placed before, if it has no list of
consumers, or if an edge to one of them cannot be settled. -/
def step? (consumers : List (List Nat)) (progress : Progress) : Option Progress :=
  match progress.ready with
  | [] => some progress
  | child :: rest =>
    if child ∈ progress.placed then none
    else do
      let settled ← consumers[child]?
      settled.foldlM release? { progress with placed := progress.placed ++ [child], ready := rest }

def steps? (consumers : List (List Nat)) : Nat → Progress → Option Progress
  | 0, progress => some progress
  | n + 1, progress => do steps? consumers n (← step? consumers progress)

end Progress

def consumersOf (edges : List Edge) (child : Nat) : List Nat :=
  (edges.filter (·.producer = child)).map Edge.consumer

section Tables
variable {edges : List Edge} {count : Nat}

def tables (count : Nat) (edges : List Edge) : Tables :=
  ⟨(List.range count).map fun child => edges.countP (·.consumer = child),
    (List.range count).map (consumersOf edges)⟩

theorem consumers_tables {child : Nat} (hchild : child < count) :
    (tables count edges).consumers[child]? = some (consumersOf edges child) := by
  simp [tables, hchild]

theorem tables_enter? {edge : Edge} (hconsumer : edge.consumer < count)
    (hproducer : edge.producer < count) :
    (tables count edges).enter? edge = some (tables count (edges ++ [edge])) := by
  have hwaiting : ((List.range count).map fun child => edges.countP (·.consumer = child)).set
      edge.consumer (edges.countP (·.consumer = edge.consumer) + 1) =
        (List.range count).map fun child => (edges ++ [edge]).countP (·.consumer = child) := by
    refine List.ext_getElem (by simp) fun child hset hmap => ?_
    by_cases h : edge.consumer = child <;> simp [List.countP_append, h]
  have hconsumers : ((List.range count).map (consumersOf edges)).set edge.producer
      (consumersOf edges edge.producer ++ [edge.consumer]) =
        (List.range count).map (consumersOf (edges ++ [edge])) := by
    refine List.ext_getElem (by simp) fun child hset hmap => ?_
    by_cases h : edge.producer = child <;> simp [consumersOf, h]
  simp [tables, Tables.enter?, hconsumer, hproducer, hwaiting, hconsumers]

theorem ofEdges?_eq (hedges : ∀ edge ∈ edges, edge.consumer < count ∧ edge.producer < count) :
    Tables.ofEdges? count edges = some (tables count edges) := by
  unfold Tables.ofEdges?
  induction edges using List.reverseRecOn with
  | nil =>
    have hnone : consumersOf [] = fun _ => [] := rfl
    simp [Tables.blank, tables, hnone, List.map_const']
  | append_singleton edges edge ih =>
    have hearlier := ih fun other hother => hedges other (by simp [hother])
    obtain ⟨hconsumer, hproducer⟩ := hedges edge (by simp)
    rw [List.foldlM_append, hearlier]
    simp [tables_enter? hconsumer hproducer]

end Tables

namespace Progress
variable {edges : List Edge} {count : Nat} {progress : Progress}

/-- Where an edge is open, its child has a counter that is not down, and has not been ready. -/
theorem Sound.release?_eq {child : Nat} {left : List Nat}
    (h : Sound edges count (child :: left) progress) (hchild : child < count) :
    progress.release? child = some (progress.release child) := by
  have hsize : child < progress.waiting.length := h.size ▸ hchild
  have hcounter := h.waiting child hchild
  rw [List.count_cons_self] at hcounter
  obtain ⟨rest, hrest⟩ : ∃ rest, progress.waiting.getD child 0 = rest + 1 :=
    ⟨pending edges progress.placed child + left.count child, by omega⟩
  have hget : progress.waiting[child]? = some (rest + 1) := by
    simpa [List.getD_eq_getElem?_getD, hsize] using hrest
  -- a child that has been ready waits for nothing, but the edge is still counted
  have hnew : child ∉ progress.placed ++ progress.ready := by
    rw [h.ready_iff child hchild]
    omega
  by_cases hlast : rest = 0
  · simp [release?, Progress.release, hget, hlast]
    simpa using hnew
  · simp [release?, Progress.release, hget, hlast]

/-- Some of the edges that are yet to be settled are settled, and the others are left. -/
theorem Sound.releaseSome {settled left : List Nat}
    (h : Sound edges count (settled ++ left) progress)
    (hsettled : ∀ child ∈ settled, child < count) :
    settled.foldlM release? progress = some (settled.foldl Progress.release progress) ∧
      Sound edges count left (settled.foldl Progress.release progress) := by
  induction settled generalizing progress with
  | nil => exact ⟨rfl, h⟩
  | cons child settled ih =>
    have hchild := hsettled child (by simp)
    have hrest := ih (h.release hchild) fun other hother => hsettled other (by simp [hother])
    rw [List.foldlM_cons, h.release?_eq hchild]
    exact hrest

theorem consumersOf_lt (hedges : ∀ edge ∈ edges, edge.consumer < count) {child other : Nat}
    (hother : other ∈ consumersOf edges child) : other < count := by
  obtain ⟨edge, hedge, rfl⟩ := List.mem_map.mp hother
  exact hedges edge (List.mem_of_mem_filter hedge)

/-- A step is sound behind each of the edges that it settles. -/
theorem Sound.midway {child : Nat} {rest settled left : List Nat}
    (h : Sound edges count [] progress) (hedges : ∀ edge ∈ edges, edge.consumer < count)
    (hready : progress.ready = child :: rest) (hsplit : consumersOf edges child = settled ++ left) :
    let placed := { progress with placed := progress.placed ++ [child], ready := rest }
    settled.foldlM release? placed = some (settled.foldl Progress.release placed) ∧
      Sound edges count left (settled.foldl Progress.release placed) := by
  have hplace := h.place hready
  rw [← consumersOf, hsplit] at hplace
  refine hplace.releaseSome fun other hother => ?_
  have hconsumer : other ∈ consumersOf edges child := by simp [hsplit, hother]
  exact consumersOf_lt hedges hconsumer

theorem Sound.step?_eq {consumers : List (List Nat)} (h : Sound edges count [] progress)
    (hedges : ∀ edge ∈ edges, edge.consumer < count)
    (hconsumers : ∀ child < count, consumers[child]? = some (consumersOf edges child)) :
    progress.step? consumers = some (progress.step edges) := by
  cases hready : progress.ready with
  | nil => simp [step?, Progress.step, hready]
  | cons child rest =>
    have hmem : child ∈ progress.placed ++ progress.ready := by simp [hready]
    have hnew : child ∉ progress.placed := fun hplaced =>
      (List.nodup_append.mp h.nodup).2.2 child hplaced child (by simp [hready]) rfl
    have hall := (h.midway hedges hready (List.append_nil _).symm).1
    simp only [step?, Progress.step, hready, hnew, hconsumers child (h.bound child hmem)]
    exact hall

theorem Sound.steps?_eq {consumers : List (List Nat)} (h : Sound edges count [] progress)
    (hedges : ∀ edge ∈ edges, edge.consumer < count)
    (hconsumers : ∀ child < count, consumers[child]? = some (consumersOf edges child)) (n : Nat) :
    progress.steps? consumers n = some (progress.steps edges n) := by
  induction n generalizing progress with
  | zero => rfl
  | succ n ih =>
    rw [steps?, h.step?_eq hedges hconsumers]
    exact ih (h.step hedges)

/-- The loop places one child with each step, until none is ready; from then on it rests. -/
theorem exists_last (edges : List Edge) (n : Nat) (progress : Progress) :
    ∃ last ≤ n, progress.steps edges n = progress.steps edges last ∧
      (progress.steps edges last).placed.length = progress.placed.length + last ∧
      (last < n → (progress.steps edges last).ready = []) ∧
      ∀ earlier < last, (progress.steps edges earlier).ready ≠ [] := by
  -- on the steps with the first one apart, since the loop is at rest from the first idle one on
  induction n generalizing progress with
  | zero => exact ⟨0, by simp, rfl, rfl, by simp, by simp⟩
  | succ n ih =>
    cases hready : progress.ready with
    | nil => exact ⟨0, by simp, steps_idle hready (n + 1), rfl, fun _ => hready, by simp⟩
    | cons child rest =>
      obtain ⟨last, hle, hsame, hplaced, hidle, hbusy⟩ := ih (progress.step edges)
      refine ⟨last + 1, by omega, hsame, ?_, fun hlt => hidle (by omega), fun earlier hlt => ?_⟩
      · rw [steps, hplaced, placed_step hready, List.length_append, List.length_singleton]
        omega
      · cases earlier with
        | zero => simp [steps, hready]
        | succ earlier => exact hbusy earlier (by omega)

theorem steps_add (edges : List Edge) (m n : Nat) (progress : Progress) :
    progress.steps edges (m + n) = (progress.steps edges m).steps edges n := by
  induction m generalizing progress with
  | zero => rw [Nat.zero_add, steps]
  | succ m ih => rw [Nat.succ_add, steps, steps, ih]

theorem Sound.ready_nil {left : List Nat} (h : Sound edges count left progress)
    (hall : progress.placed.length = count) : progress.ready = [] := by
  have hsubset : progress.placed ++ progress.ready ⊆ List.range count := fun child hchild =>
    List.mem_range.mpr (h.bound child hchild)
  have hlength := (List.subperm_of_subset h.nodup hsubset).length_le
  rw [List.length_append, List.length_range] at hlength
  exact List.length_eq_zero_iff.mp (by omega)

/-- The loop comes to rest after as many steps as it places children, with what the run of the loop
has in the end. -/
theorem run_rests (hedges : ∀ edge ∈ edges, edge.consumer < count) :
    let progress := fun n => steps edges n (start count edges)
    ∃ last ≤ count, (progress last).ready = [] ∧ (progress last).placed.length = last ∧
      (∀ n < last, (progress n).ready ≠ []) ∧ ∀ n ≥ last, progress n = run count edges := by
  intro progress
  obtain ⟨last, hle, hsame, hplaced, hidle, hbusy⟩ := exists_last edges count (start count edges)
  have hlength : (progress last).placed.length = last := hplaced.trans (Nat.zero_add last)
  have hsound : Sound edges count [] (progress last) := start_sound.steps hedges last
  have hready : (progress last).ready = [] := by
    by_cases hlt : last < count
    · exact hidle hlt
    · exact hsound.ready_nil (by omega)
  refine ⟨last, hle, hready, hlength, hbusy, fun n hn => ?_⟩
  obtain ⟨more, rfl⟩ := Nat.exists_eq_add_of_le hn
  calc progress (last + more)
      = (progress last).steps edges more := steps_add edges last more _
    _ = progress last := steps_idle hready more
    _ = run count edges := hsame.symm

end Progress

section Dependencies
variable {names : List String} {dependencies : List Dependency}

/-- How many of its dependencies the child at a position waits for. One that is declared twice
counts twice. -/
def openDependencies (names : List String) (dependencies : List Dependency) (placed : List Nat)
    (child : Nat) : Nat :=
  dependencies.countP fun d => names[child]? = some d.consumer ∧ d.producer ∉ arrange names placed

theorem pending_edges (hnodup : names.Nodup)
    (hknown : ∀ d ∈ dependencies, d.consumer ∈ names ∧ d.producer ∈ names) (placed : List Nat)
    (child : Nat) : Progress.pending (edges names dependencies) placed child =
      openDependencies names dependencies placed child := by
  induction dependencies with
  | nil => rfl
  | cons d rest ih =>
    obtain ⟨⟨hconsumer, hproducer⟩, hrest⟩ := List.forall_mem_cons.mp hknown
    obtain ⟨consumer, hconsumer⟩ := List.mem_iff_getElem?.mp hconsumer
    obtain ⟨producer, hproducer⟩ := List.mem_iff_getElem?.mp hproducer
    have hunique {name : String} {one other : Nat} (hone : names[one]? = some name)
        (hother : names[other]? = some name) : one = other := by
      rw [← idxOf?_iff hnodup] at hone hother
      exact Option.some.inj (hone.symm.trans hother)
    have hcons : edges names (d :: rest) = ⟨consumer, producer⟩ :: edges names rest := by
      rw [← idxOf?_iff hnodup] at hconsumer hproducer
      simp [edges, hconsumer, hproducer]
    have hchild : consumer = child ↔ names[child]? = some d.consumer :=
      ⟨fun h => h ▸ hconsumer, hunique hconsumer⟩
    have hplaced : producer ∈ placed ↔ d.producer ∈ arrange names placed := by
      refine ⟨fun h => List.mem_filterMap.mpr ⟨producer, h, hproducer⟩, fun h => ?_⟩
      obtain ⟨other, hother, hname⟩ := List.mem_filterMap.mp h
      exact hunique hproducer hname ▸ hother
    have hcount := ih hrest
    simp only [Progress.pending, openDependencies] at hcount ⊢
    rw [hcons, List.countP_cons, List.countP_cons, hcount]
    simp only [hchild, hplaced]

/-- How the counters and the ready children stand while the edges to the consumers in `left` are yet
to be settled. -/
structure Balanced (names : List String) (dependencies : List Dependency) (left : List Nat)
    (progress : Progress) : Prop where
  waiting : ∀ child < names.length, progress.waiting[child]? =
    some (openDependencies names dependencies progress.placed child + left.count child)
  ready : ∀ child, child ∈ progress.ready ↔
    child < names.length ∧ child ∉ progress.placed ∧ progress.waiting[child]? = some 0
  once : (progress.placed ++ progress.ready).Nodup
  known : ∀ child ∈ progress.placed, child < names.length

theorem Progress.Sound.balanced {left : List Nat} {progress : Progress}
    (h : Sound (edges names dependencies) names.length left progress) (hnodup : names.Nodup)
    (hknown : ∀ d ∈ dependencies, d.consumer ∈ names ∧ d.producer ∈ names) :
    Balanced names dependencies left progress := by
  have hget (child : Nat) (hchild : child < names.length) :
      progress.waiting[child]? = some (progress.waiting.getD child 0) := by
    have hsize : child < progress.waiting.length := h.size ▸ hchild
    simp [List.getD_eq_getElem?_getD, hsize]
  refine ⟨fun child hchild => ?_, fun child => ⟨fun hready => ?_, ?_⟩, h.nodup,
    fun child hchild => h.placed_lt hchild⟩
  · rw [hget child hchild, h.waiting child hchild, pending_edges hnodup hknown]
  · have hmem := List.mem_append_right progress.placed hready
    have hchild := h.bound child hmem
    refine ⟨hchild, fun hplaced => ?_, ?_⟩
    · exact (List.nodup_append.mp h.nodup).2.2 child hplaced child hready rfl
    · rw [hget child hchild, (h.ready_iff child hchild).mp hmem]
  · rintro ⟨hchild, hnew, hzero⟩
    rw [hget child hchild, Option.some.injEq, ← h.ready_iff child hchild] at hzero
    exact (List.mem_append.mp hzero).resolve_left hnew

end Dependencies

/-- The loop on the tables of a valid job never looks for an entry that is not there, never takes
from a counter that is down, and lets no child become ready or be placed twice. At each of its
steps, and behind each edge within a step, a counter says how many declared dependencies its child
waits for, and the ready children are those that wait for none and are not placed. The loop comes
to rest after as many steps as it places children. -/
theorem order_loop_balanced {children : List Work} {dependencies : List Dependency}
    (hsafe : isSafe (issues children dependencies)) :
    let names := children.map Work.name
    let start := Progress.start children.length (edges names dependencies)
    let progress := fun n => Progress.steps (edges names dependencies) n start
    ∃ tables, Tables.ofEdges? children.length (edges names dependencies) = some tables ∧
      tables.waiting = start.waiting ∧
      (∀ n, start.steps? tables.consumers n = some (progress n) ∧
        Balanced names dependencies [] (progress n) ∧
        ∀ child rest settled left, (progress n).ready = child :: rest →
          tables.consumers[child]? = some (settled ++ left) →
          ∃ midway, settled.foldlM Progress.release? { progress n with
              placed := (progress n).placed ++ [child], ready := rest } = some midway ∧
            Balanced names dependencies left midway) ∧
      ∃ last ≤ children.length, (progress last).ready = [] ∧
        (progress last).placed.length = last ∧ (∀ n < last, (progress n).ready ≠ []) ∧
        ∀ n ≥ last, progress n = Progress.run children.length (edges names dependencies) := by
  intro names start progress
  have hcount : names.length = children.length := List.length_map ..
  obtain ⟨hnodup, hdependencies⟩ := issues_safe hsafe
  have hknown : ∀ d ∈ dependencies, d.consumer ∈ names ∧ d.producer ∈ names := fun d hd =>
    ⟨(hdependencies d hd).1, (hdependencies d hd).2.1⟩
  have hsound (n : Nat) :
      Progress.Sound (edges names dependencies) children.length [] (progress n) :=
    Progress.start_sound.steps edges_bound n
  have hbalanced {left : List Nat} {progress : Progress}
      (h : Progress.Sound (edges names dependencies) children.length left progress) :
      Balanced names dependencies left progress :=
    Progress.Sound.balanced (hcount ▸ h) hnodup hknown
  refine ⟨_, ofEdges?_eq edges_within, rfl, fun n => ⟨?_, hbalanced (hsound n), ?_⟩, ?_⟩
  · exact Progress.start_sound.steps?_eq edges_bound (fun _ => consumers_tables) n
  · intro child rest settled left hready hfound
    have hchild := (hsound n).bound child (by simp [hready])
    have hsplit := Option.some.inj ((consumers_tables hchild).symm.trans hfound)
    obtain ⟨hmidway, hleft⟩ := (hsound n).midway edges_bound hready hsplit
    exact ⟨_, hmidway, hbalanced hleft⟩
  · exact Progress.run_rests edges_bound

def supper : List Work :=
  ["serve", "lay", "cook"].map fun name => .ofSignature (.ofNat 0) name (.net "do" "Kitchen")

def supperDependencies : List Dependency :=
  [⟨"serve", "cook"⟩, ⟨"serve", "lay"⟩, ⟨"serve", "cook"⟩]

/-- Between the two edges from the third child the first one still waits, for one of them. -/
theorem order_loop_balanced_supper :
    isSafe (issues supper supperDependencies) ∧
    Tables.ofEdges? 3 (edges (supper.map Work.name) supperDependencies) =
      some ⟨[3, 0, 0], [[], [0], [0, 0]]⟩ ∧
    (Progress.mk [] [3, 0, 0] [1, 2]).steps? [[], [0], [0, 0]] 1 =
      some ⟨[1], [2, 0, 0], [2]⟩ ∧
    [0].foldlM Progress.release? ⟨[1, 2], [2, 0, 0], []⟩ = some ⟨[1, 2], [1, 0, 0], []⟩ ∧
    Balanced (supper.map Work.name) supperDependencies [0] ⟨[1, 2], [1, 0, 0], []⟩ := by
  have hsafe : isSafe (issues supper supperDependencies) := by decide +kernel
  have htables : Tables.ofEdges? 3 (edges (supper.map Work.name) supperDependencies) =
      some ⟨[3, 0, 0], [[], [0], [0, 0]]⟩ := by rfl
  obtain ⟨tables, hfound, -, hsteps, -⟩ := order_loop_balanced hsafe
  obtain rfl := Option.some.inj (htables.symm.trans hfound)
  obtain ⟨hstep, -, hmidway⟩ := hsteps 1
  obtain ⟨midway, hsettled, hbalanced⟩ := hmidway 2 [] [0] [0] rfl rfl
  have hrelease : [0].foldlM Progress.release? ⟨[1, 2], [2, 0, 0], []⟩ =
      some ⟨[1, 2], [1, 0, 0], []⟩ := rfl
  obtain rfl := Option.some.inj (hrelease.symm.trans hsettled)
  exact ⟨hsafe, htables, hstep, hrelease, hbalanced⟩

end ServiceShell.Job
