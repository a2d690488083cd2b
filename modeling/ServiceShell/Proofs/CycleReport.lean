import Mathlib.Data.List.Chain
import ServiceShell.Proofs.SortedJob
/-!
What a job reports that cannot be ordered although it is valid: just the children that can never be
placed, which are those on a cycle of dependencies and those that wait for one of them.
-/
namespace ServiceShell.Job

open Relation (ReflTransGen TransGen)

/-- Each child depends on the next one, and the last on the first. -/
def IsCycle (dependencies : List Dependency) : List String → Prop
  | [] => False
  | first :: rest => List.IsChain (fun consumer producer => ⟨consumer, producer⟩ ∈ dependencies)
      (first :: (rest ++ [first]))

/-- The child is on a cycle, or waits for a child that is. -/
def Blocked (dependencies : List Dependency) (name : String) : Prop :=
  ∃ cycle, IsCycle dependencies cycle ∧
    (name ∈ cycle ∨ ∃ other ∈ cycle, WaitsFor dependencies name other)

section Cycles
variable {dependencies : List Dependency} {cycle : List String} {name other : String}

/-- Every child on a cycle waits for itself. -/
theorem IsCycle.waitsFor (h : IsCycle dependencies cycle) (hname : name ∈ cycle) :
    WaitsFor dependencies name name := by
  cases cycle with
  | nil => cases h
  | cons first rest =>
    have hchain : List.IsChain (WaitsFor dependencies) (first :: (rest ++ [first])) :=
      List.IsChain.imp (fun _ _ => TransGen.single) h
    have : Trans (WaitsFor dependencies) (WaitsFor dependencies) (WaitsFor dependencies) :=
      ⟨TransGen.trans⟩
    obtain ⟨hfirst, hrest⟩ := List.pairwise_cons.mp hchain.pairwise
    obtain rfl | hlater := List.mem_cons.mp hname
    · exact hfirst name (by simp)
    · have hback := (List.pairwise_append.mp hrest).2.2 name hlater first (by simp)
      exact hback.trans (hfirst name (by simp [hlater]))

/-- Every child that waits for itself is on a cycle. -/
theorem exists_cycle (h : WaitsFor dependencies name name) :
    ∃ cycle, IsCycle dependencies cycle ∧ name ∈ cycle := by
  obtain ⟨next, hnext, hback⟩ := TransGen.head'_iff.mp h
  obtain ⟨later, hchain, hlast⟩ := List.exists_isChain_cons_of_relationReflTransGen hback
  have hsplit : (next :: later).dropLast ++ [name] = next :: later := by
    rw [← hlast]
    exact List.dropLast_append_getLast _
  rw [← hsplit] at hchain
  refine ⟨name :: (next :: later).dropLast, ?_, List.mem_cons_self⟩
  change List.IsChain _ (name :: ((next :: later).dropLast ++ [name]))
  rw [hsplit] at hchain ⊢
  exact .cons_cons hnext hchain

theorem blocked_iff : Blocked dependencies name ↔ ∃ other, WaitsFor dependencies other other ∧
    ReflTransGen (fun consumer producer => ⟨consumer, producer⟩ ∈ dependencies) name other := by
  constructor
  · rintro ⟨cycle, hcycle, hname | ⟨other, hother, hwaits⟩⟩
    · exact ⟨name, hcycle.waitsFor hname, .refl⟩
    · exact ⟨other, hcycle.waitsFor hother, hwaits.to_reflTransGen⟩
  · rintro ⟨other, hother, hreaches⟩
    obtain ⟨cycle, hcycle, hmem⟩ := exists_cycle hother
    obtain rfl | hwaits := Relation.reflTransGen_iff_eq_or_transGen.mp hreaches
    · exact ⟨cycle, hcycle, .inl hmem⟩
    · exact ⟨cycle, hcycle, .inr ⟨other, hmem, hwaits⟩⟩

theorem Blocked.needs (h : Blocked dependencies name) :
    ∃ producer, ⟨name, producer⟩ ∈ dependencies ∧ Blocked dependencies producer := by
  obtain ⟨other, hother, hreaches⟩ := blocked_iff.mp h
  obtain rfl | ⟨producer, hneeds, hrest⟩ := hreaches.cases_head
  · obtain ⟨producer, hneeds, hback⟩ := TransGen.head'_iff.mp hother
    exact ⟨producer, hneeds, blocked_iff.mpr ⟨name, hother, hback⟩⟩
  · exact ⟨producer, hneeds, blocked_iff.mpr ⟨other, hother, hrest⟩⟩

/-- However far children are placed, no blocked one is among them. -/
theorem Blocked.not_placed {names : List String} (h : Blocked dependencies name)
    {positions : List Nat} (hplaced : Each (MayFollow names dependencies) positions) :
    name ∉ arrange names positions := by
  induction positions using List.reverseRecOn generalizing name with
  | nil => simp [arrange]
  | append_singleton earlier last ih =>
    obtain ⟨hearlier, -, -, hneeds⟩ := each_snoc.mp hplaced
    intro hmem
    rw [arrange, List.filterMap_append] at hmem
    obtain hbefore | hlast := List.mem_append.mp hmem
    · exact ih h hearlier hbefore
    · have hget : names[last]? = some name := by simpa using hlast
      obtain ⟨producer, hd, hproducer⟩ := h.needs
      exact ih hproducer hearlier (hneeds _ hd hget)

end Cycles

section Stuck
variable {children : List Work} {dependencies : List Dependency}

def placing (children : List Work) (dependencies : List Dependency) : Progress :=
  Progress.run children.length (edges (children.map Work.name) dependencies)

def stuck (children : List Work) (dependencies : List Dependency) : List Nat :=
  (List.range children.length).filter fun child =>
    (placing children dependencies).waiting.getD child 0 > 0

theorem order_stuck (hsafe : isSafe (issues children dependencies))
    (hnone : ∀ positions, order children dependencies ≠ .ok positions) :
    (placing children dependencies).placed.length ≠ children.length ∧
      order children dependencies = .error (.cyclic
        (arrange (children.map Work.name) (stuck children dependencies))) := by
  have hunfold := hnone
  unfold order at hunfold ⊢
  dsimp only at hunfold ⊢
  rw [if_neg (by simp [hsafe])] at hunfold ⊢
  split at hunfold
  · exact absurd rfl (hunfold _)
  · rename_i hdependencies
    rw [if_neg hdependencies]
    split at hunfold
    · exact absurd rfl (hunfold _)
    · rename_i hplaced
      exact ⟨hplaced, if_neg hplaced⟩

theorem placing_sound : Progress.Sound (edges (children.map Work.name) dependencies)
    children.length [] (placing children dependencies) :=
  Progress.run_sound edges_bound

theorem placing_stuck
    (hplaced : (placing children dependencies).placed.length ≠ children.length) :
    (placing children dependencies).ready = [] := by
  refine (Progress.placed_or_stuck _ _ _).resolve_left fun hall => hplaced ?_
  exact hall.trans (Nat.zero_add children.length)

/-- The children that the loop has placed could be placed in that order. -/
theorem placing_each (hsafe : isSafe (issues children dependencies)) :
    Each (MayFollow (children.map Work.name) dependencies)
      (placing children dependencies).placed := by
  obtain ⟨hnodup, hknown⟩ := issues_safe hsafe
  have hcount : (children.map Work.name).length = children.length := List.length_map ..
  have hgreedy : Progress.Greedy (edges (children.map Work.name) dependencies) children.length
      (placing children dependencies) :=
    Progress.start_greedy.steps edges_bound children.length
  intro before child after hplaced
  have hnext := (hgreedy.first before child after hplaced).1
  rw [← hcount] at hnext
  exact (next_iff_mayFollow hnodup (fun d hd => (hknown d hd).2.1) before child).mp hnext

/-- A child that the loop could not place is blocked. -/
theorem blocked_of_not_placed (hsafe : isSafe (issues children dependencies))
    (hplaced : (placing children dependencies).placed.length ≠ children.length) {child : Nat}
    {name : String} (hname : (children.map Work.name)[child]? = some name)
    (hleft : child ∉ (placing children dependencies).placed) : Blocked dependencies name := by
  have hnodup := (issues_safe hsafe).1
  have hchild : child < children.length := by
    obtain ⟨hlt, -⟩ := List.getElem?_eq_some_iff.mp hname
    rwa [List.length_map] at hlt
  have hproducers : ∀ edge ∈ edges (children.map Work.name) dependencies,
      edge.producer < children.length := fun edge hedge => (edges_within edge hedge).2
  by_contra hfree
  refine hleft (placing_sound.placed_of_acyclic (placing_stuck hplaced) hproducers ?_ hchild)
  intro other hreaches hcycle
  -- the cycle of positions is one of names, and behind it stands the child
  have hother : ∃ otherName, (children.map Work.name)[other]? = some otherName ∧
      ReflTransGen (fun consumer producer => ⟨consumer, producer⟩ ∈ dependencies)
        name otherName := by
    obtain rfl | hwaits := Relation.reflTransGen_iff_eq_or_transGen.mp hreaches
    · exact ⟨name, hname, .refl⟩
    · obtain ⟨otherName, hotherName, hbehind⟩ := waitsFor_of_edges hnodup hname hwaits
      exact ⟨otherName, hotherName, hbehind.to_reflTransGen⟩
  obtain ⟨otherName, hotherName, hbehind⟩ := hother
  obtain ⟨again, hagain, hself⟩ := waitsFor_of_edges hnodup hotherName hcycle
  obtain rfl : otherName = again := Option.some.inj (hotherName.symm.trans hagain)
  exact hfree (blocked_iff.mpr ⟨otherName, hself, hbehind⟩)

theorem Blocked.mem_names (hsafe : isSafe (issues children dependencies)) {name : String}
    (h : Blocked dependencies name) : name ∈ children.map Work.name := by
  obtain ⟨producer, hd, -⟩ := h.needs
  exact ((issues_safe hsafe).2 _ hd).1

theorem mem_stuck (hplaced : (placing children dependencies).placed.length ≠ children.length)
    (child : Nat) : child ∈ stuck children dependencies ↔
      child < children.length ∧ child ∉ (placing children dependencies).placed := by
  have hsound : Progress.Sound (edges (children.map Work.name) dependencies) children.length []
      (placing children dependencies) := placing_sound
  rw [stuck, List.mem_filter, List.mem_range, decide_eq_true_eq]
  refine and_congr_right fun hchild => ?_
  have hready := hsound.ready_iff child hchild
  rw [placing_stuck hplaced, List.append_nil] at hready
  rw [hready]
  exact Nat.pos_iff_ne_zero

theorem mem_arrange_stuck (hsafe : isSafe (issues children dependencies))
    (hplaced : (placing children dependencies).placed.length ≠ children.length) (name : String) :
    name ∈ arrange (children.map Work.name) (stuck children dependencies) ↔
      Blocked dependencies name := by
  constructor
  · intro hmem
    obtain ⟨child, hchild, hname⟩ := List.mem_filterMap.mp hmem
    exact blocked_of_not_placed hsafe hplaced hname ((mem_stuck hplaced child).mp hchild).2
  · intro hblocked
    obtain ⟨child, hname⟩ := List.mem_iff_getElem?.mp (hblocked.mem_names hsafe)
    have hchild : child < children.length := by
      obtain ⟨hlt, -⟩ := List.getElem?_eq_some_iff.mp hname
      rwa [List.length_map] at hlt
    have hleft : child ∉ (placing children dependencies).placed := fun hin =>
      hblocked.not_placed (placing_each hsafe) (List.mem_filterMap.mpr ⟨child, hin, hname⟩)
    exact List.mem_filterMap.mpr ⟨child, (mem_stuck hplaced child).mpr ⟨hchild, hleft⟩, hname⟩

theorem arrange_stuck_sublist :
    (arrange (children.map Work.name) (stuck children dependencies)).Sublist
      (children.map Work.name) := by
  have hsublist : (stuck children dependencies).Sublist (List.range children.length) :=
    List.filter_sublist
  have hall := arrange_range (children.map Work.name)
  rw [List.length_map] at hall
  have harranged := hsublist.filterMap ((children.map Work.name)[·]?)
  rwa [← arrange, ← arrange, hall] at harranged

theorem placed_of_free (hsafe : isSafe (issues children dependencies))
    (hplaced : (placing children dependencies).placed.length ≠ children.length) {name : String}
    (hname : name ∈ children.map Work.name) (hfree : ¬ Blocked dependencies name) :
    name ∈ arrange (children.map Work.name) (placing children dependencies).placed := by
  obtain ⟨child, hchild⟩ := List.mem_iff_getElem?.mp hname
  by_contra hleft
  refine hfree (blocked_of_not_placed hsafe hplaced hchild fun hin => ?_)
  exact hleft (List.mem_filterMap.mpr ⟨child, hin, hchild⟩)

end Stuck

/-- A valid job with a cycle is refused. The refusal names, each once and in declared order, the
children that are on a cycle or wait for one that is, and they are those that stand in no order
which places producers first, however few children it places. -/
theorem cycle_reported {children : List Work} {dependencies : List Dependency}
    (hsafe : isSafe (issues children dependencies))
    (hcyclic : ∃ cycle, IsCycle dependencies cycle) :
    let names := children.map Work.name
    ∃ named, order children dependencies = .error (.cyclic named) ∧
      named.Sublist names ∧ named.Nodup ∧
      (∀ name, name ∈ named ↔ Blocked dependencies name) ∧
      (∀ name, name ∈ named ↔ name ∈ names ∧
        ∀ positions, Each (MayFollow names dependencies) positions →
          name ∉ arrange names positions) ∧
      (∃ cycle, IsCycle dependencies cycle ∧ cycle ⊆ named) ∧
      ∀ (σ : Type) (shell : Shell σ) (call : Call) (core : Core) (resuming : Bool)
        (world : World σ),
        (shell.execute call core resuming (.job dependencies children) world).value =
          ⟨⟨core, .job dependencies children⟩, .error (.configuration
            (s!"cyclic dependency in job '{core.name}' among: " ++ ", ".intercalate named))⟩ := by
  intro names
  obtain ⟨cycle, hcycle⟩ := hcyclic
  have hnone : ∀ positions, order children dependencies ≠ .ok positions := by
    intro positions horder
    obtain ⟨first, hfirst⟩ : ∃ first, first ∈ cycle :=
      List.exists_mem_of_ne_nil _ fun hnil => by rw [hnil] at hcycle; exact hcycle
    exact (Sortable.of_order horder).acyclic first (hcycle.waitsFor hfirst)
  obtain ⟨hplaced, herror⟩ := order_stuck hsafe hnone
  have hblocked := mem_arrange_stuck hsafe hplaced
  have hsublist : (arrange names (stuck children dependencies)).Sublist names :=
    arrange_stuck_sublist
  refine ⟨_, herror, hsublist, hsublist.nodup (issues_safe hsafe).1, hblocked, fun name => ?_,
    ⟨cycle, hcycle, fun name hname => ?_⟩, fun σ shell call core resuming world => ?_⟩
  · rw [hblocked]
    refine ⟨fun h => ⟨h.mem_names hsafe, fun _ => h.not_placed⟩, fun ⟨hname, hnever⟩ => ?_⟩
    by_contra hfree
    exact hnever _ (placing_each hsafe) (placed_of_free hsafe hplaced hname hfree)
  · exact (hblocked name).mpr ⟨cycle, hcycle, .inl hname⟩
  · exact (shell.execute_unordered call core resuming herror world).2

def dinner : List Work :=
  ["serve", "lay", "mix", "bake"].map fun name => .ofSignature (.ofNat 0) name (.net "do" "Kitchen")

def dinnerDependencies : List Dependency :=
  [⟨"serve", "bake"⟩, ⟨"serve", "lay"⟩, ⟨"bake", "mix"⟩, ⟨"mix", "bake"⟩]

theorem cycle_reported_dinner :
    isSafe (issues dinner dinnerDependencies) ∧
      IsCycle dinnerDependencies ["mix", "bake"] ∧
      order dinner dinnerDependencies = .error (.cyclic ["serve", "mix", "bake"]) ∧
      Blocked dinnerDependencies "serve" ∧ ¬ Blocked dinnerDependencies "lay" := by
  have hsafe : isSafe (issues dinner dinnerDependencies) := by decide +kernel
  have hcycle : IsCycle dinnerDependencies ["mix", "bake"] :=
    .cons_cons (by decide) (.cons_cons (by decide) (.singleton _))
  obtain ⟨named, hnamed, -, -, hblocked, -⟩ := cycle_reported hsafe ⟨_, hcycle⟩
  have horder : order dinner dinnerDependencies = .error (.cyclic ["serve", "mix", "bake"]) := by
    rfl
  obtain rfl : named = ["serve", "mix", "bake"] :=
    OrderError.cyclic.inj (Except.error.inj (hnamed.symm.trans horder))
  exact ⟨hsafe, hcycle, horder, (hblocked "serve").mp (by simp),
    fun h => by simpa using (hblocked "lay").mpr h⟩

end ServiceShell.Job
