import Mathlib.Data.Fintype.EquivFin
import Mathlib.Logic.Relation
import Mathlib.Order.WellFounded
import ServiceShell.Proofs.JobOrder
/-!
Which jobs can be ordered: those whose children have distinct names, whose dependencies join
children of the job, and where no child waits for itself, directly or through others. The order in
which children and dependencies are declared does not matter for that.
-/
namespace ServiceShell.Job

open Relation (ReflTransGen TransGen)

theorem InOrder.before {α : Type} {needs : α → α → Prop} {earlier before after : List α} {item : α}
    (h : InOrder needs earlier (before ++ item :: after)) {other : α} (hneeds : needs item other) :
    other ∈ earlier ++ before := by
  induction before generalizing earlier with
  | nil => simpa using h.1 other hneeds
  | cons first rest ih =>
    have hbefore := ih h.2
    rwa [List.append_assoc] at hbefore

theorem InOrder.idxOf_lt {α : Type} [DecidableEq α] {needs : α → α → Prop} {items : List α}
    (h : InOrder needs [] items) {item other : α} (hitem : item ∈ items)
    (hneeds : needs item other) : other ∈ items ∧ items.idxOf other < items.idxOf item := by
  obtain ⟨before, after, rfl, hnew⟩ := List.eq_append_cons_of_mem hitem
  have hother : other ∈ before := h.before hneeds
  refine ⟨List.mem_append_left _ hother, ?_⟩
  rw [List.idxOf_append_of_mem hother, List.idxOf_append_of_notMem hnew]
  exact Nat.lt_of_lt_of_le (List.idxOf_lt_length_of_mem hother) (Nat.le_add_right _ _)

theorem InOrder.mono {α : Type} {needs fewer : α → α → Prop} {earlier items : List α}
    (h : InOrder needs earlier items) (hfewer : ∀ item other, fewer item other → needs item other) :
    InOrder fewer earlier items := by
  induction items generalizing earlier with
  | nil => trivial
  | cons item rest ih => exact ⟨fun other hneeds => h.1 other (hfewer item other hneeds), ih h.2⟩

/-- It does not matter in which order children and dependencies are declared. -/
theorem Arranged.redeclare {children reordered arranged : List Work}
    {dependencies declared : List Dependency} (h : Arranged declared reordered arranged)
    (hchildren : children.Perm reordered) (hdependencies : dependencies.Perm declared) :
    Arranged dependencies children arranged where
  nodup := h.nodup
  perm := h.perm.trans hchildren.symm
  known d hd := h.known d (hdependencies.mem_iff.mp hd)
  inOrder := h.inOrder.mono fun _ _ hd => hdependencies.mem_iff.mp hd

namespace Progress
variable {edges : List Edge} {count : Nat}

theorem placed_releaseAll (left : List Nat) (progress : Progress) :
    (left.foldl release progress).placed = progress.placed := by
  induction left generalizing progress with
  | nil => rfl
  | cons child left ih => exact (ih (progress.release child)).trans rfl

theorem placed_step {edges : List Edge} {progress : Progress} {child : Nat} {rest : List Nat}
    (hready : progress.ready = child :: rest) :
    (progress.step edges).placed = progress.placed ++ [child] := by
  rw [step, hready]
  exact placed_releaseAll _ _

theorem steps_idle {edges : List Edge} {progress : Progress} (hready : progress.ready = [])
    (n : Nat) : progress.steps edges n = progress := by
  induction n with
  | zero => rfl
  | succ n ih =>
    have hstep : progress.step edges = progress := by rw [step, hready]
    rw [steps, hstep, ih]

/-- The loop places a child with every step, until none is ready. -/
theorem placed_or_stuck (edges : List Edge) (n : Nat) (progress : Progress) :
    (progress.steps edges n).placed.length = progress.placed.length + n ∨
      (progress.steps edges n).ready = [] := by
  induction n generalizing progress with
  | zero => exact .inl rfl
  | succ n ih =>
    cases hready : progress.ready with
    | nil =>
      rw [steps_idle hready]
      exact .inr hready
    | cons child rest =>
      have hlength : (progress.step edges).placed.length = progress.placed.length + 1 := by
        rw [placed_step hready, List.length_append, List.length_singleton]
      rw [steps]
      refine (ih (progress.step edges)).imp_left fun hcount => ?_
      omega

/-- When the loop gets stuck, it has placed every child that waits for none which waits for
itself. -/
theorem Sound.placed_of_acyclic {progress : Progress} (h : Sound edges count [] progress)
    (hready : progress.ready = []) (hedges : ∀ edge ∈ edges, edge.producer < count) {child : Nat}
    (hacyclic : ∀ other, ReflTransGen (fun consumer producer => ⟨consumer, producer⟩ ∈ edges)
      child other → ¬ TransGen (fun consumer producer => ⟨consumer, producer⟩ ∈ edges) other other)
    (hchild : child < count) : child ∈ progress.placed := by
  let needs (consumer producer : Nat) : Prop := ⟨consumer, producer⟩ ∈ edges
  let waits (producer consumer : Fin count) : Prop :=
    TransGen needs consumer.val producer.val ∧ ReflTransGen needs child consumer.val
  have : IsTrans (Fin count) waits :=
    ⟨fun _ _ _ hfirst hsecond => ⟨hsecond.1.trans hfirst.1, hsecond.2⟩⟩
  have : Std.Irrefl waits := ⟨fun other hwaits => hacyclic other hwaits.2 hwaits.1⟩
  by_contra hleft
  -- among the children that are left there is one that waits for no other of them
  obtain ⟨first, ⟨hfirst, hneeded⟩, hleast⟩ :=
    (Finite.wellFounded_of_trans_of_irrefl waits).has_min
      {other | other.val ∉ progress.placed ∧ ReflTransGen needs child other.val}
      ⟨⟨child, hchild⟩, hleft, .refl⟩
  have hopen : 0 < pending edges progress.placed first := by
    have hwaiting := h.waiting first first.isLt
    have hunready := (h.ready_iff first first.isLt).not
    rw [hready, List.append_nil] at hunready
    have hpositive := hunready.mp hfirst
    rw [List.count_nil] at hwaiting
    omega
  obtain ⟨⟨consumer, producer⟩, hedge, hnext⟩ := List.countP_pos_iff.mp hopen
  simp only [decide_eq_true_eq] at hnext
  obtain ⟨rfl, hproducer⟩ := hnext
  exact hleast ⟨producer, hedges _ hedge⟩ ⟨hproducer, hneeded.tail hedge⟩ ⟨.single hedge, hneeded⟩

theorem run_complete (hconsumers : ∀ edge ∈ edges, edge.consumer < count)
    (hproducers : ∀ edge ∈ edges, edge.producer < count)
    (hacyclic : ∀ child, ¬ TransGen (fun consumer producer => ⟨consumer, producer⟩ ∈ edges)
      child child) : (run count edges).placed.length = count := by
  obtain hcount | hready := placed_or_stuck edges count (start count edges)
  · exact hcount.trans (Nat.zero_add count)
  · have hsound : Sound edges count [] (run count edges) := run_sound hconsumers
    have hall : List.range count ⊆ (run count edges).placed := fun child hchild =>
      hsound.placed_of_acyclic hready hproducers (fun other _ => hacyclic other)
        (List.mem_range.mp hchild)
    have hbound : (run count edges).placed ⊆ List.range count := fun child hchild =>
      List.mem_range.mpr (hsound.placed_lt hchild)
    have hmore := (List.subperm_of_subset List.nodup_range hall).length_le
    have hless := (List.subperm_of_subset hsound.nodup.of_append_left hbound).length_le
    rw [List.length_range] at hmore hless
    exact Nat.le_antisymm hless hmore

end Progress

theorem childIssues_isSafe {earlier : List String} {children : List Work}
    (hnodup : (children.map Work.name).Nodup)
    (hnew : ∀ child ∈ children, child.name ∉ earlier) : isSafe (childIssues earlier children) := by
  induction children generalizing earlier with
  | nil => rfl
  | cons child rest ih =>
    obtain ⟨hother, hnodup⟩ := List.nodup_cons.mp hnodup
    have hrest : ∀ other ∈ rest, other.name ∉ child.name :: earlier := fun other hmem hname => by
      obtain heq | hearlier := List.mem_cons.mp hname
      · exact hother (heq ▸ List.mem_map_of_mem hmem)
      · exact hnew other (List.mem_cons_of_mem _ hmem) hearlier
    rw [childIssues, isSafe_append, isSafe_append, ih hnodup hrest,
      if_neg (hnew child (List.mem_cons_self ..))]
    -- a signature without an operation is a warning
    cases child.core.processSignature with
    | none => rfl
    | some signature =>
      dsimp only
      split <;> rfl

theorem dependencyIssues_isSafe {names : List String} {earlier dependencies : List Dependency}
    (h : ∀ d ∈ dependencies, d.consumer ∈ names ∧ d.producer ∈ names ∧ d.consumer ≠ d.producer) :
    isSafe (dependencyIssues names earlier dependencies) := by
  induction dependencies generalizing earlier with
  | nil => rfl
  | cons d rest ih =>
    obtain ⟨⟨hconsumer, hproducer, hne⟩, hrest⟩ := List.forall_mem_cons.mp h
    have hknown : [d.consumer, d.producer].filter (· ∉ names) = [] := by
      simp [hconsumer, hproducer]
    rw [dependencyIssues, isSafe_append, isSafe_append, isSafe_append, ih hrest, if_neg hne, hknown]
    split <;> rfl

def WaitsFor (dependencies : List Dependency) : String → String → Prop :=
  TransGen fun consumer producer => ⟨consumer, producer⟩ ∈ dependencies

structure Sortable (children : List Work) (dependencies : List Dependency) : Prop where
  distinct : (children.map Work.name).Nodup
  known : ∀ d ∈ dependencies,
    d.consumer ∈ children.map Work.name ∧ d.producer ∈ children.map Work.name
  acyclic : ∀ child, ¬ WaitsFor dependencies child child

theorem waitsFor_of_edges {names : List String} {dependencies : List Dependency} {name : String}
    {consumer producer : Nat} (hnodup : names.Nodup) (hname : names[consumer]? = some name)
    (h : TransGen (fun consumer producer => ⟨consumer, producer⟩ ∈ edges names dependencies)
      consumer producer) :
    ∃ other, names[producer]? = some other ∧ WaitsFor dependencies name other := by
  induction h with
  | single hedge =>
    obtain ⟨d, hd, hconsumer, hproducer⟩ := of_mem_edges hedge
    rw [idxOf?_iff hnodup] at hconsumer hproducer
    obtain rfl : name = d.consumer := Option.some.inj (hname.symm.trans hconsumer)
    exact ⟨d.producer, hproducer, .single hd⟩
  | tail _ hedge ih =>
    obtain ⟨middle, hmiddle, hwaits⟩ := ih
    obtain ⟨d, hd, hconsumer, hproducer⟩ := of_mem_edges hedge
    rw [idxOf?_iff hnodup] at hconsumer hproducer
    obtain rfl : middle = d.consumer := Option.some.inj (hmiddle.symm.trans hconsumer)
    exact ⟨d.producer, hproducer, hwaits.tail hd⟩

namespace Sortable
variable {children others : List Work} {dependencies declared : List Dependency}

theorem isSafe (h : Sortable children dependencies) : isSafe (issues children dependencies) := by
  rw [issues, isSafe_append, Bool.and_eq_true]
  refine ⟨childIssues_isSafe h.distinct (by simp), dependencyIssues_isSafe fun d hd => ?_⟩
  obtain ⟨hconsumer, hproducer⟩ := h.known d hd
  refine ⟨hconsumer, hproducer, fun heq => h.acyclic d.consumer (.single ?_)⟩
  obtain ⟨consumer, producer⟩ := d
  obtain rfl : consumer = producer := heq
  exact hd

theorem order_ok (h : Sortable children dependencies) :
    ∃ positions, order children dependencies = .ok positions := by
  have hplaced : (Progress.run children.length
      (edges (children.map Work.name) dependencies)).placed.length = children.length := by
    refine Progress.run_complete edges_bound (fun edge hedge => (edges_within edge hedge).2)
      fun child hcycle => ?_
    obtain ⟨next, hedge, -⟩ := Relation.TransGen.head'_iff.mp hcycle
    obtain ⟨d, -, hconsumer, -⟩ := of_mem_edges hedge
    have hname := (idxOf?_iff h.distinct _ _).mp hconsumer
    obtain ⟨other, hother, hwaits⟩ := waitsFor_of_edges h.distinct hname hcycle
    obtain rfl : d.consumer = other := Option.some.inj (hname.symm.trans hother)
    exact h.acyclic _ hwaits
  unfold order
  dsimp only
  rw [h.isSafe, if_pos hplaced]
  simp only [Bool.not_true, Bool.false_eq_true, if_false]
  split <;> exact ⟨_, rfl⟩

theorem of_order {positions : List Nat} (h : order children dependencies = .ok positions) :
    Sortable children dependencies := by
  obtain ⟨hnodup, hperm, hknown, hinOrder⟩ := Job.order_ok h
  have hnames := hperm.map Work.name
  refine ⟨hnames.nodup_iff.mp hnodup, fun d hd => ?_, fun child hcycle => ?_⟩
  · exact ⟨hnames.mem_iff.mp (hknown d hd).1, hnames.mem_iff.mp (hknown d hd).2⟩
  · have hbefore {consumer producer : String} (hwaits : WaitsFor dependencies consumer producer) :
        (arrange children positions |>.map Work.name).idxOf producer <
          (arrange children positions |>.map Work.name).idxOf consumer := by
      induction hwaits with
      | single hd => exact (hinOrder.idxOf_lt (hknown _ hd).1 hd).2
      | tail _ hd ih => exact (hinOrder.idxOf_lt (hknown _ hd).1 hd).2.trans ih
    exact Nat.lt_irrefl _ (hbefore hcycle)

theorem perm (h : Sortable children dependencies) (hchildren : children.Perm others)
    (hdependencies : dependencies.Perm declared) : Sortable others declared := by
  have hnames := hchildren.map Work.name
  have hmem (d : Dependency) : d ∈ declared ↔ d ∈ dependencies := hdependencies.mem_iff.symm
  refine ⟨hnames.nodup_iff.mp h.distinct, fun d hd => ?_, fun child hcycle => ?_⟩
  · obtain ⟨hconsumer, hproducer⟩ := h.known d ((hmem d).mp hd)
    exact ⟨hnames.mem_iff.mp hconsumer, hnames.mem_iff.mp hproducer⟩
  · exact h.acyclic child (hcycle.lift id fun _ _ hd => (hmem _).mp hd)

end Sortable

/-- A job can be ordered or not, however its children and dependencies are declared. -/
theorem order_ok_perm {children others : List Work} {dependencies declared : List Dependency}
    {positions : List Nat} (h : order children dependencies = .ok positions)
    (hchildren : children.Perm others) (hdependencies : dependencies.Perm declared) :
    ∃ positions, order others declared = .ok positions :=
  ((Sortable.of_order h).perm hchildren hdependencies).order_ok

end ServiceShell.Job
