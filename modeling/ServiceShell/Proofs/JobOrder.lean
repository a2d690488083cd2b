import Mathlib.Data.List.Nodup
import Mathlib.Data.List.Perm.Basic
import Mathlib.Data.List.Perm.Subperm
import ServiceShell.Job.Order
/-!
The loop that orders the children of a job: its invariant, and what it gives for an ordered job.
-/
namespace ServiceShell.Job

/-- Each item comes after all that it needs, where those in `earlier` have come before the first. -/
def InOrder {α : Type} (needs : α → α → Prop) : List α → List α → Prop
  | _, [] => True
  | earlier, item :: rest =>
    (∀ other, needs item other → other ∈ earlier) ∧ InOrder needs (earlier ++ [item]) rest

theorem InOrder.snoc {α : Type} {needs : α → α → Prop} {earlier items : List α} {item : α}
    (h : InOrder needs earlier items)
    (hitem : ∀ other, needs item other → other ∈ earlier ++ items) :
    InOrder needs earlier (items ++ [item]) := by
  induction items generalizing earlier with
  | nil => exact ⟨by simpa using hitem, trivial⟩
  | cons first rest ih =>
    obtain ⟨hfirst, hrest⟩ := h
    exact ⟨hfirst, ih hrest (by simpa using hitem)⟩

namespace Progress
variable {edges : List Edge} {count : Nat}

theorem insertReady_perm (child : Nat) (ready : List Nat) :
    List.Perm (insertReady child ready) (child :: ready) := by
  induction ready with
  | nil => exact .refl _
  | cons first rest ih =>
    unfold insertReady
    split
    · exact .refl _
    · exact (ih.cons first).trans (List.Perm.swap child first rest)

def pending (edges : List Edge) (placed : List Nat) (child : Nat) : Nat :=
  edges.countP fun edge => edge.consumer = child ∧ edge.producer ∉ placed

/-- The invariant of the loop, while the edges to the consumers in `left` are yet to be settled. -/
structure Sound (edges : List Edge) (count : Nat) (left : List Nat) (progress : Progress) :
    Prop where
  size : progress.waiting.length = count
  nodup : (progress.placed ++ progress.ready).Nodup
  bound : ∀ child ∈ progress.placed ++ progress.ready, child < count
  waiting : ∀ child < count, progress.waiting.getD child 0 =
    pending edges progress.placed child + left.count child
  ready_iff : ∀ child < count,
    child ∈ progress.placed ++ progress.ready ↔ progress.waiting.getD child 0 = 0
  inOrder : InOrder (fun child other => ⟨child, other⟩ ∈ edges) [] progress.placed

theorem start_sound : Sound edges count [] (start count edges) := by
  have hwaiting : ∀ child < count, (start count edges).waiting.getD child 0 =
      edges.countP (·.consumer = child) := by
    intro child hchild
    simp [start, hchild]
  refine ⟨by simp [start], ?_, ?_, ?_, ?_, trivial⟩
  · exact List.nodup_range.filter _
  · intro child hchild
    have hmem : child ∈ (start count edges).ready := by simpa [start] using hchild
    exact List.mem_range.mp (List.mem_of_mem_filter hmem)
  · intro child hchild
    rw [hwaiting child hchild]
    simp [start, pending]
  · intro child hchild
    have hready : (start count edges).ready = (List.range count).filter fun child =>
        (start count edges).waiting.getD child 0 = 0 := rfl
    have hplaced : (start count edges).placed = [] := rfl
    rw [hplaced, hready, List.nil_append, List.mem_filter, List.mem_range]
    simp [hchild]

theorem waiting_release (progress : Progress) {child : Nat}
    (hchild : child < progress.waiting.length) (other : Nat) :
    (progress.release child).waiting.getD other 0 =
      if child = other then progress.waiting.getD child 0 - 1
      else progress.waiting.getD other 0 := by
  simp only [release, List.getD_eq_getElem?_getD, List.getElem?_set, hchild, if_true]
  split <;> simp

theorem release_perm (progress : Progress) (child : Nat) :
    List.Perm ((progress.release child).placed ++ (progress.release child).ready)
      (if progress.waiting.getD child 0 - 1 = 0 then child :: (progress.placed ++ progress.ready)
        else progress.placed ++ progress.ready) := by
  unfold release
  dsimp only
  split
  · exact ((insertReady_perm child progress.ready).append_left _).trans List.perm_middle
  · exact List.Perm.refl _

/-- Settling an edge keeps the invariant. -/
theorem Sound.release {left : List Nat} {child : Nat} {progress : Progress}
    (h : Sound edges count (child :: left) progress) (hchild : child < count) :
    Sound edges count left (progress.release child) := by
  have hsize : child < progress.waiting.length := h.size ▸ hchild
  have hwaiting := waiting_release progress hsize
  have hold : progress.waiting.getD child 0 =
      pending edges progress.placed child + left.count child + 1 := by
    rw [h.waiting child hchild, List.count_cons_self]
    omega
  -- the edge that is settled now was still open
  have hnew : child ∉ progress.placed ++ progress.ready := by
    rw [h.ready_iff child hchild, hold]
    omega
  have hperm := release_perm progress child
  refine ⟨?_, ?_, ?_, ?_, ?_, h.inOrder⟩
  · rw [← h.size]
    exact List.length_set
  · rw [hperm.nodup_iff]
    split
    · exact List.nodup_cons.mpr ⟨hnew, h.nodup⟩
    · exact h.nodup
  · intro other hother
    rw [hperm.mem_iff] at hother
    split at hother
    · cases List.mem_cons.mp hother with
      | inl heq => exact heq ▸ hchild
      | inr hbefore => exact h.bound other hbefore
    · exact h.bound other hother
  · intro other hother
    rw [hwaiting other]
    split
    · rename_i heq
      subst heq
      rw [hold]
      rfl
    · rename_i hne
      rw [h.waiting other hother, List.count_cons_of_ne hne]
      rfl
  · intro other hother
    rw [hwaiting other, hperm.mem_iff]
    by_cases heq : child = other
    · rw [if_pos heq]
      subst heq
      split
      · rename_i hlast
        exact iff_of_true (List.mem_cons_self ..) hlast
      · rename_i hopen
        exact iff_of_false hnew hopen
    · rw [if_neg heq]
      split
      · rw [List.mem_cons, or_iff_right (Ne.symm heq)]
        exact h.ready_iff other hother
      · exact h.ready_iff other hother

theorem Sound.releaseAll {left : List Nat} {progress : Progress}
    (h : Sound edges count left progress) (hleft : ∀ child ∈ left, child < count) :
    Sound edges count [] (left.foldl Progress.release progress) := by
  induction left generalizing progress with
  | nil => exact h
  | cons child left ih =>
    have hchild := hleft child (List.mem_cons_self ..)
    exact ih (h.release hchild) fun other hother => hleft other (List.mem_cons_of_mem _ hother)

/-- An edge from a child that is placed now was open before. -/
theorem pending_snoc (edges : List Edge) {placed : List Nat} {first : Nat} (hfirst : first ∉ placed)
    (child : Nat) :
    pending edges placed child = pending edges (placed ++ [first]) child +
      ((edges.filter (·.producer = first)).map Edge.consumer).count child := by
  induction edges with
  | nil => rfl
  | cons edge edges ih =>
    simp only [pending, List.countP_cons] at ih ⊢
    rw [ih]
    by_cases hproducer : edge.producer = first
    · by_cases hconsumer : edge.consumer = child
      · simp [hproducer, hconsumer, hfirst]
        omega
      · simp [hproducer, hconsumer]
    · by_cases hconsumer : edge.consumer = child <;> simp [hproducer, hconsumer]
      omega

theorem pending_eq_zero {placed : List Nat} {child : Nat} (h : pending edges placed child = 0)
    {other : Nat} (hedge : ⟨child, other⟩ ∈ edges) : other ∈ placed := by
  by_contra hother
  have hpositive : 0 < pending edges placed child :=
    List.countP_pos_iff.mpr ⟨_, hedge, by simpa using hother⟩
  omega

/-- Placing the first child that is ready opens the edges to its consumers. -/
theorem Sound.place {child : Nat} {rest : List Nat} {progress : Progress}
    (h : Sound edges count [] progress) (hready : progress.ready = child :: rest) :
    Sound edges count ((edges.filter (·.producer = child)).map Edge.consumer)
      { progress with placed := progress.placed ++ [child], ready := rest } := by
  have hsame : progress.placed ++ [child] ++ rest = progress.placed ++ progress.ready := by
    rw [hready, List.append_assoc, List.singleton_append]
  have hmem : child ∈ progress.placed ++ progress.ready := by simp [hready]
  have hchild := h.bound child hmem
  have hnew : child ∉ progress.placed := fun hplaced =>
    (List.nodup_append.mp h.nodup).2.2 child hplaced child (by simp [hready]) rfl
  have hclosed : pending edges progress.placed child = 0 := by
    have hwaiting := h.waiting child hchild
    rw [(h.ready_iff child hchild).mp hmem, List.count_nil] at hwaiting
    exact hwaiting.symm
  refine ⟨h.size, hsame ▸ h.nodup, hsame ▸ h.bound, ?_, ?_, ?_⟩
  · intro other hother
    rw [h.waiting other hother, List.count_nil]
    exact pending_snoc edges hnew other
  · intro other hother
    dsimp only
    rw [hsame]
    exact h.ready_iff other hother
  · refine h.inOrder.snoc fun other hedge => ?_
    rw [List.nil_append]
    exact pending_eq_zero hclosed hedge

theorem Sound.step {progress : Progress} (hedges : ∀ edge ∈ edges, edge.consumer < count)
    (h : Sound edges count [] progress) : Sound edges count [] (progress.step edges) := by
  unfold Progress.step
  cases hready : progress.ready with
  | nil => exact h
  | cons child rest =>
    refine (h.place hready).releaseAll fun other hother => ?_
    obtain ⟨edge, hedge, rfl⟩ := List.mem_map.mp hother
    exact hedges edge (List.mem_of_mem_filter hedge)

theorem Sound.steps {progress : Progress} (hedges : ∀ edge ∈ edges, edge.consumer < count)
    (h : Sound edges count [] progress) (n : Nat) :
    Sound edges count [] (progress.steps edges n) := by
  induction n generalizing progress with
  | zero => exact h
  | succ n ih => exact ih (h.step hedges)

theorem Sound.placed_lt {left : List Nat} {progress : Progress}
    (h : Sound edges count left progress) {child : Nat} (hchild : child ∈ progress.placed) :
    child < count :=
  h.bound child (List.mem_append_left _ hchild)

/-- If as many are placed as there are children, then all are. -/
theorem Sound.placed_perm {left : List Nat} {progress : Progress}
    (h : Sound edges count left progress) (hall : progress.placed.length = count) :
    progress.placed.Perm (List.range count) := by
  have hnodup : progress.placed.Nodup := h.nodup.of_append_left
  have hsubset : progress.placed ⊆ List.range count :=
    fun child hchild => List.mem_range.mpr (h.placed_lt hchild)
  refine (List.subperm_of_subset hnodup hsubset).perm_of_length_le (Nat.le_of_eq ?_)
  rw [List.length_range, hall]

theorem run_sound (hedges : ∀ edge ∈ edges, edge.consumer < count) :
    Sound edges count [] (run count edges) :=
  start_sound.steps hedges count

end Progress

theorem isSafe_append (issues others : List Issue) :
    isSafe (issues ++ others) = (isSafe issues && isSafe others) := by
  simp [isSafe, List.any_append]

theorem childIssues_safe {earlier : List String} {children : List Work}
    (h : isSafe (childIssues earlier children)) :
    (children.map Work.name).Nodup ∧ ∀ child ∈ children, child.name ∉ earlier := by
  induction children generalizing earlier with
  | nil => exact ⟨List.nodup_nil, by simp⟩
  | cons child rest ih =>
    simp only [childIssues, isSafe_append, Bool.and_eq_true] at h
    obtain ⟨⟨hrepeated, -⟩, hrest⟩ := h
    obtain ⟨hnodup, hnew⟩ := ih hrest
    have hchild : child.name ∉ earlier := fun hmem => by
      simp [hmem, isSafe, Issue.isError] at hrepeated
    refine ⟨List.nodup_cons.mpr ⟨fun hmem => ?_, hnodup⟩, fun other hother => ?_⟩
    · obtain ⟨other, hother, hname⟩ := List.mem_map.mp hmem
      exact hnew other hother (by simp [hname])
    · obtain rfl | hother := List.mem_cons.mp hother
      · exact hchild
      · exact fun hmem => hnew other hother (List.mem_cons_of_mem _ hmem)

theorem dependencyIssues_safe {names : List String} {earlier dependencies : List Dependency}
    (h : isSafe (dependencyIssues names earlier dependencies)) :
    ∀ d ∈ dependencies, d.consumer ∈ names ∧ d.producer ∈ names ∧ d.consumer ≠ d.producer := by
  induction dependencies generalizing earlier with
  | nil => simp
  | cons d rest ih =>
    simp only [dependencyIssues, isSafe_append, Bool.and_eq_true] at h
    obtain ⟨⟨⟨hself, -⟩, hunknown⟩, hrest⟩ := h
    intro other hother
    obtain rfl | hother := List.mem_cons.mp hother
    · have hne : other.consumer ≠ other.producer := fun heq => by
        simp [heq, isSafe, Issue.isError] at hself
      have hknown : other.consumer ∈ names ∧ other.producer ∈ names := by
        simpa [isSafe, Issue.isError] using hunknown
      exact ⟨hknown.1, hknown.2, hne⟩
    · exact ih hrest other hother

/-- A job without errors joins two different ones of its children, which have distinct names. -/
theorem issues_safe {children : List Work} {dependencies : List Dependency}
    (h : isSafe (issues children dependencies)) :
    (children.map Work.name).Nodup ∧ ∀ d ∈ dependencies, d.consumer ∈ children.map Work.name ∧
      d.producer ∈ children.map Work.name ∧ d.consumer ≠ d.producer := by
  rw [issues, isSafe_append, Bool.and_eq_true] at h
  exact ⟨(childIssues_safe h.1).1, dependencyIssues_safe h.2⟩

theorem arrange_range {α : Type} (items : List α) :
    arrange items (List.range items.length) = items := by
  induction items with
  | nil => rfl
  | cons item rest ih =>
    have hshift : ((item :: rest)[·]?) ∘ Nat.succ = (rest[·]?) := rfl
    rw [arrange] at ih ⊢
    rw [List.length_cons, List.range_succ_eq_map, List.filterMap_cons, List.filterMap_map, hshift,
      ih]
    rfl

theorem arrange_map {α β : Type} (f : α → β) (items : List α) (positions : List Nat) :
    arrange (items.map f) positions = (arrange items positions).map f := by
  simp [arrange, List.map_filterMap]

theorem mem_of_mem_arrange {α : Type} {item : α} {items : List α} {positions : List Nat}
    (h : item ∈ arrange items positions) : item ∈ items := by
  obtain ⟨position, -, hget⟩ := List.mem_filterMap.mp h
  exact List.mem_of_getElem? hget

theorem arrange_perm {α : Type} {items : List α} {positions : List Nat}
    (h : positions.Perm (List.range items.length)) : (arrange items positions).Perm items := by
  have hperm := h.filterMap (items[·]?)
  rw [← arrange, ← arrange, arrange_range] at hperm
  exact hperm

theorem idxOf?_iff {names : List String} (hnodup : names.Nodup) (name : String) (position : Nat) :
    names.idxOf? name = some position ↔ names[position]? = some name := by
  constructor
  · intro h
    obtain ⟨hlt, hget, -⟩ := List.idxOf?_eq_some_iff.mp h
    rw [List.getElem?_eq_getElem hlt, hget]
  · intro h
    obtain ⟨hlt, hget⟩ := List.getElem?_eq_some_iff.mp h
    refine List.idxOf?_eq_some_iff.mpr ⟨hlt, hget, fun other hother heq => ?_⟩
    have hsame : names[other] = names[position] := heq.trans hget.symm
    exact absurd ((List.Nodup.getElem_inj_iff hnodup).mp hsame) (Nat.ne_of_lt hother)

theorem mem_edges {names : List String} {dependencies : List Dependency} (hnodup : names.Nodup)
    {d : Dependency} (hd : d ∈ dependencies) {consumer producer : Nat}
    (hconsumer : names[consumer]? = some d.consumer)
    (hproducer : names[producer]? = some d.producer) :
    ⟨consumer, producer⟩ ∈ edges names dependencies := by
  refine List.mem_filterMap.mpr ⟨d, hd, ?_⟩
  rw [(idxOf?_iff hnodup _ _).mpr hconsumer, (idxOf?_iff hnodup _ _).mpr hproducer]
  rfl

/-- What is placed in order of the edges is arranged in order of the dependencies. -/
theorem arrange_inOrder {names : List String} {dependencies : List Dependency}
    {positions earlier : List Nat} (hnodup : names.Nodup)
    (hknown : ∀ d ∈ dependencies, d.producer ∈ names)
    (hbound : ∀ position ∈ positions, position < names.length)
    (h : InOrder (fun child other => ⟨child, other⟩ ∈ edges names dependencies) earlier positions) :
    InOrder (fun child other => ⟨child, other⟩ ∈ dependencies) (arrange names earlier)
      (arrange names positions) := by
  induction positions generalizing earlier with
  | nil => trivial
  | cons position rest ih =>
    obtain ⟨hfirst, hrest⟩ := h
    have hlt := hbound position (List.mem_cons_self ..)
    have hget : names[position]? = some names[position] := List.getElem?_eq_getElem hlt
    have hcons : arrange names (position :: rest) = names[position] :: arrange names rest := by
      rw [arrange, List.filterMap_cons, hget]
      rfl
    have hsnoc : arrange names (earlier ++ [position]) =
        arrange names earlier ++ [names[position]] := by
      rw [arrange, List.filterMap_append, List.filterMap_cons, hget]
      rfl
    have htail := ih (fun other hother => hbound other (List.mem_cons_of_mem _ hother)) hrest
    rw [hcons]
    refine ⟨fun other hneeds => ?_, hsnoc ▸ htail⟩
    obtain ⟨producer, hproducer⟩ := List.mem_iff_getElem?.mp (hknown _ hneeds)
    have hedge := hfirst producer (mem_edges hnodup hneeds hget hproducer)
    exact List.mem_filterMap.mpr ⟨producer, hedge, hproducer⟩

theorem of_mem_edges {names : List String} {dependencies : List Dependency} {edge : Edge}
    (h : edge ∈ edges names dependencies) : ∃ d ∈ dependencies,
      names.idxOf? d.consumer = some edge.consumer ∧
        names.idxOf? d.producer = some edge.producer := by
  obtain ⟨d, hd, hedge⟩ := List.mem_filterMap.mp h
  refine ⟨d, hd, ?_⟩
  cases hconsumer : names.idxOf? d.consumer with
  | none => simp [hconsumer] at hedge
  | some consumer =>
    cases hproducer : names.idxOf? d.producer with
    | none => simp [hproducer] at hedge
    | some producer =>
      simp only [hconsumer, hproducer, Option.bind_eq_bind, Option.bind_some, Option.pure_def,
        Option.some.injEq] at hedge
      exact hedge ▸ ⟨rfl, rfl⟩

theorem edges_within {children : List Work} {dependencies : List Dependency} :
    ∀ edge ∈ edges (children.map Work.name) dependencies,
      edge.consumer < children.length ∧ edge.producer < children.length := by
  intro edge hedge
  obtain ⟨d, -, hconsumer, hproducer⟩ := of_mem_edges hedge
  have hconsumer := (List.idxOf?_eq_some_iff.mp hconsumer).1
  have hproducer := (List.idxOf?_eq_some_iff.mp hproducer).1
  rw [List.length_map] at hconsumer hproducer
  exact ⟨hconsumer, hproducer⟩

theorem edges_bound {children : List Work} {dependencies : List Dependency} :
    ∀ edge ∈ edges (children.map Work.name) dependencies, edge.consumer < children.length :=
  fun edge hedge => (edges_within edge hedge).1

theorem inOrder_of_no_needs {α : Type} {needs : α → α → Prop} (h : ∀ item other, ¬ needs item other)
    (earlier items : List α) : InOrder needs earlier items := by
  induction items generalizing earlier with
  | nil => trivial
  | cons item rest ih => exact ⟨fun other hneeds => absurd hneeds (h item other), ih _⟩

/-- The children of a job, each once, with every producer before its consumers. -/
structure Arranged (dependencies : List Dependency) (children arranged : List Work) : Prop where
  nodup : (arranged.map Work.name).Nodup
  perm : arranged.Perm children
  known : ∀ d ∈ dependencies,
    d.consumer ∈ arranged.map Work.name ∧ d.producer ∈ arranged.map Work.name
  inOrder : InOrder (fun child other => ⟨child, other⟩ ∈ dependencies) []
    (arranged.map Work.name)

theorem order_cases {children : List Work} {dependencies : List Dependency} {positions : List Nat}
    (h : order children dependencies = .ok positions) :
    isSafe (issues children dependencies) ∧
      (dependencies = [] ∧ positions = List.range children.length ∨
        positions = (Progress.run children.length
          (edges (children.map Work.name) dependencies)).placed ∧
        positions.length = children.length) := by
  unfold order at h
  dsimp only at h
  split at h
  · cases h
  · rename_i hsafe
    refine ⟨by simpa using hsafe, ?_⟩
    split at h
    · rename_i hnone
      exact .inl ⟨List.isEmpty_iff.mp hnone, (Except.ok.inj h).symm⟩
    · split at h
      · rename_i hall
        obtain rfl := Except.ok.inj h
        exact .inr ⟨rfl, hall⟩
      · cases h

theorem order_perm {children : List Work} {dependencies : List Dependency} {positions : List Nat}
    (h : order children dependencies = .ok positions) :
    positions.Perm (List.range children.length) := by
  obtain ⟨-, ⟨-, rfl⟩ | ⟨rfl, hall⟩⟩ := order_cases h
  · exact .refl _
  · exact (Progress.run_sound edges_bound).placed_perm hall

theorem order_ok {children : List Work} {dependencies : List Dependency} {positions : List Nat}
    (h : order children dependencies = .ok positions) :
    Arranged dependencies children (arrange children positions) := by
  obtain ⟨hsafe, hfound⟩ := order_cases h
  obtain ⟨hnodup, hknown⟩ := issues_safe hsafe
  have hperm : (arrange children positions).Perm children := arrange_perm (order_perm h)
  have hnames := hperm.map Work.name
  refine ⟨hnames.nodup_iff.mpr hnodup, hperm, fun d hd => ?_, ?_⟩
  · exact ⟨hnames.mem_iff.mpr (hknown d hd).1, hnames.mem_iff.mpr (hknown d hd).2.1⟩
  · obtain ⟨rfl, rfl⟩ | ⟨rfl, -⟩ := hfound
    · exact inOrder_of_no_needs (by simp) _ _
    · have hcount : (children.map Work.name).length = children.length := List.length_map ..
      have hbound : ∀ edge ∈ edges (children.map Work.name) dependencies,
          edge.consumer < children.length := edges_bound
      have hsound := Progress.run_sound hbound
      rw [← arrange_map]
      exact arrange_inOrder hnodup (fun d hd => (hknown d hd).2.1)
        (fun position hposition => hcount ▸ hsound.placed_lt hposition) hsound.inOrder

end ServiceShell.Job
