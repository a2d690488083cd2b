import Mathlib.Data.List.Basic
import Mathlib.Order.Bounds.Basic
import ServiceShell.Proofs.Sortable
import ServiceShell.Proofs.Untouched
/-!
How a job is sorted. It can be sorted just where its children have distinct names, its dependencies
join two different ones of them, and none waits for itself; and of all orders in which producers
come before their consumers it takes the first, as positions compare.
-/
namespace ServiceShell.Job

def Each {α : Type} (P : List α → α → Prop) (items : List α) : Prop :=
  ∀ before item after, items = before ++ item :: after → P before item

section Each
variable {α : Type} {P : List α → α → Prop}

theorem each_nil : Each P [] := by
  intro before item after h
  simp at h

theorem each_cons {item : α} {items : List α} :
    Each P (item :: items) ↔ P [] item ∧ Each (fun before => P (item :: before)) items := by
  constructor
  · intro h
    refine ⟨h [] item items rfl, fun before other after hitems => ?_⟩
    exact h (item :: before) other after (by simp [hitems])
  · rintro ⟨hfirst, hrest⟩ before other after hitems
    cases before with
    | nil =>
      obtain ⟨rfl, -⟩ := List.cons.inj hitems
      exact hfirst
    | cons first before =>
      obtain ⟨rfl, hsplit⟩ := List.cons.inj hitems
      exact hrest before other after hsplit

theorem each_snoc {item : α} {items : List α} :
    Each P (items ++ [item]) ↔ Each P items ∧ P items item := by
  induction items generalizing P with
  | nil => simp [each_cons, each_nil]
  | cons first rest ih => simp [each_cons, ih, and_assoc]

end Each

/-- What is first in every place comes first among all that is allowed. -/
theorem first_of_each {next : List Nat → Nat → Prop} {items others : List Nat}
    (hfirst : Each (fun before item => IsLeast {other | next before other} item) items)
    (hothers : Each next others) (hlength : items.length = others.length) :
    items = others ∨ List.Lex (· < ·) items others := by
  induction items generalizing next others with
  | nil =>
    left
    exact (List.length_eq_zero_iff.mp hlength.symm).symm
  | cons item items ih =>
    cases others with
    | nil => simp at hlength
    | cons other others =>
      obtain ⟨⟨-, hleast⟩, hrest⟩ := each_cons.mp hfirst
      obtain ⟨hother, hmore⟩ := each_cons.mp hothers
      have hle : item ≤ other := hleast hother
      by_cases heq : item = other
      · subst heq
        obtain rfl | hlex := ih hrest hmore (by simpa using hlength)
        · exact .inl rfl
        · exact .inr (.cons hlex)
      · exact .inr (.rel (by omega))

/-- Counting upwards takes the first in every place, where nothing is taken twice. -/
theorem range_first {next : List Nat → Nat → Prop}
    (hnew : ∀ before child, next before child → child ∉ before) {count : Nat}
    (h : Each next (List.range count)) :
    Each (fun before item => IsLeast {other | next before other} item) (List.range count) := by
  intro before child after hrange
  refine ⟨h before child after hrange, fun other hother => ?_⟩
  have hplace (position : Nat) (hlt : position < before.length) : position ∈ before := by
    have hget := congrArg (·[position]?) hrange
    have hcount : position < count := by
      have hlength := congrArg List.length hrange
      simp at hlength
      omega
    simp only [List.getElem?_range hcount, List.getElem?_append_left hlt] at hget
    exact List.mem_of_getElem? hget.symm
  have hchild : child = before.length := by
    have hcount : before.length < count := by
      have hlength := congrArg List.length hrange
      simp at hlength
      omega
    have hget := congrArg (·[before.length]?) hrange
    simpa [hcount] using hget.symm
  by_contra hlt
  exact hnew before other hother (hplace other (by omega))

namespace Progress
variable {edges : List Edge} {count : Nat}

def Next (edges : List Edge) (count : Nat) (placed : List Nat) (child : Nat) : Prop :=
  child < count ∧ child ∉ placed ∧ ∀ producer, ⟨child, producer⟩ ∈ edges → producer ∈ placed

theorem pending_eq_zero_iff {placed : List Nat} {child : Nat} :
    pending edges placed child = 0 ↔
      ∀ producer, ⟨child, producer⟩ ∈ edges → producer ∈ placed := by
  refine ⟨fun h producer hedge => pending_eq_zero h hedge, fun h => ?_⟩
  refine List.countP_eq_zero.mpr ?_
  rintro ⟨consumer, producer⟩ hedge hopen
  simp only [decide_eq_true_eq] at hopen
  obtain ⟨rfl, hproducer⟩ := hopen
  exact hproducer (h producer hedge)

/-- Between two steps exactly those children are ready that may come next. -/
theorem Sound.ready_iff_next {progress : Progress} (h : Sound edges count [] progress)
    (child : Nat) : child ∈ progress.ready ↔ Next edges count progress.placed child := by
  have hsettled (hchild : child < count) : child ∈ progress.placed ++ progress.ready ↔
      ∀ producer, ⟨child, producer⟩ ∈ edges → producer ∈ progress.placed := by
    rw [h.ready_iff child hchild, h.waiting child hchild, List.count_nil, Nat.add_zero,
      pending_eq_zero_iff]
  constructor
  · intro hready
    have hmem := List.mem_append_right progress.placed hready
    have hchild := h.bound child hmem
    refine ⟨hchild, fun hplaced => ?_, (hsettled hchild).mp hmem⟩
    exact (List.nodup_append.mp h.nodup).2.2 child hplaced child hready rfl
  · rintro ⟨hchild, hnew, hproducers⟩
    exact (List.mem_append.mp ((hsettled hchild).mpr hproducers)).resolve_left hnew

theorem insertReady_sorted (child : Nat) {ready : List Nat} (h : ready.Pairwise (· ≤ ·)) :
    (insertReady child ready).Pairwise (· ≤ ·) := by
  induction ready with
  | nil => simp [insertReady]
  | cons first rest ih =>
    obtain ⟨hfirst, hrest⟩ := List.pairwise_cons.mp h
    unfold insertReady
    split
    · rename_i hlt
      refine List.pairwise_cons.mpr ⟨fun other hother => ?_, h⟩
      obtain rfl | hother := List.mem_cons.mp hother
      · omega
      · have := hfirst other hother
        omega
    · rename_i hge
      refine List.pairwise_cons.mpr ⟨fun other hother => ?_, ih hrest⟩
      obtain rfl | hother := List.mem_cons.mp ((insertReady_perm child rest).mem_iff.mp hother)
      · omega
      · exact hfirst other hother

theorem releaseAll_sorted (left : List Nat) {progress : Progress}
    (h : progress.ready.Pairwise (· ≤ ·)) :
    (left.foldl release progress).ready.Pairwise (· ≤ ·) := by
  induction left generalizing progress with
  | nil => exact h
  | cons child left ih =>
    refine ih ?_
    unfold release
    dsimp only
    split
    · exact insertReady_sorted child h
    · exact h

/-- The loop goes on with the first child that may come next. -/
structure Greedy (edges : List Edge) (count : Nat) (progress : Progress) : Prop where
  sound : Sound edges count [] progress
  sorted : progress.ready.Pairwise (· ≤ ·)
  first : Each (fun placed child => IsLeast {other | Next edges count placed other} child)
    progress.placed

theorem start_greedy : Greedy edges count (start count edges) where
  sound := start_sound
  sorted := List.pairwise_le_range.filter _
  first := each_nil

theorem Greedy.step {progress : Progress} (hedges : ∀ edge ∈ edges, edge.consumer < count)
    (h : Greedy edges count progress) : Greedy edges count (progress.step edges) := by
  refine ⟨h.sound.step hedges, ?_, ?_⟩
  · unfold Progress.step
    cases hready : progress.ready with
    | nil => simp [hready]
    | cons child rest =>
      have hsorted := h.sorted
      rw [hready] at hsorted
      exact releaseAll_sorted _ (List.pairwise_cons.mp hsorted).2
  · unfold Progress.step
    cases hready : progress.ready with
    | nil => exact h.first
    | cons child rest =>
      have hsorted := h.sorted
      rw [hready] at hsorted
      dsimp only
      rw [placed_releaseAll, each_snoc]
      refine ⟨h.first, (h.sound.ready_iff_next child).mp (by simp [hready]), fun other hother => ?_⟩
      have hmem := (h.sound.ready_iff_next other).mpr hother
      rw [hready] at hmem
      obtain rfl | hrest := List.mem_cons.mp hmem
      · exact Nat.le_refl other
      · exact (List.pairwise_cons.mp hsorted).1 other hrest

theorem Greedy.steps {progress : Progress} (hedges : ∀ edge ∈ edges, edge.consumer < count)
    (h : Greedy edges count progress) (n : Nat) : Greedy edges count (progress.steps edges n) := by
  induction n generalizing progress with
  | zero => exact h
  | succ n ih => exact ih (h.step hedges)

end Progress

section Names
variable {names : List String} {dependencies : List Dependency}

def MayFollow (names : List String) (dependencies : List Dependency) (before : List Nat)
    (child : Nat) : Prop :=
  child < names.length ∧ child ∉ before ∧
    ∀ d ∈ dependencies, names[child]? = some d.consumer → d.producer ∈ arrange names before

/-- An order of all children in which every producer comes before its consumers. -/
def Respects (names : List String) (dependencies : List Dependency) (positions : List Nat) :
    Prop :=
  positions.Perm (List.range names.length) ∧ ∀ d ∈ dependencies,
    (arrange names positions).idxOf d.producer < (arrange names positions).idxOf d.consumer

theorem next_iff_mayFollow (hnodup : names.Nodup) (hknown : ∀ d ∈ dependencies, d.producer ∈ names)
    (before : List Nat) (child : Nat) :
    Progress.Next (edges names dependencies) names.length before child ↔
      MayFollow names dependencies before child := by
  refine and_congr_right fun _ => and_congr_right fun _ => ⟨fun h d hd hconsumer => ?_,
    fun h producer hedge => ?_⟩
  · obtain ⟨producer, hproducer⟩ := List.mem_iff_getElem?.mp (hknown d hd)
    exact List.mem_filterMap.mpr
      ⟨producer, h producer (mem_edges hnodup hd hconsumer hproducer), hproducer⟩
  · obtain ⟨d, hd, hconsumer, hproducer⟩ := of_mem_edges hedge
    rw [idxOf?_iff hnodup] at hconsumer hproducer
    obtain ⟨other, hother, hname⟩ := List.mem_filterMap.mp (h d hd hconsumer)
    -- names are distinct, so the producer stands at one position only
    have hsame : producer = other := by
      have hfirst := (idxOf?_iff hnodup _ _).mpr hproducer
      have hsecond := (idxOf?_iff hnodup _ _).mpr hname
      exact Option.some.inj (hfirst.symm.trans hsecond)
    exact hsame ▸ hother

theorem Respects.each (hnodup : names.Nodup) {positions : List Nat}
    (h : Respects names dependencies positions) :
    Each (MayFollow names dependencies) positions := by
  obtain ⟨hperm, hprecedes⟩ := h
  have hdistinct : positions.Nodup := hperm.nodup_iff.mpr List.nodup_range
  have harranged : (arrange names positions).Nodup := (arrange_perm hperm).nodup_iff.mpr hnodup
  rintro before child after rfl
  have hchild : child < names.length := by
    have hmem := hperm.mem_iff.mp (List.mem_append_right before List.mem_cons_self)
    exact List.mem_range.mp hmem
  refine ⟨hchild, fun hmem => ?_, fun d hd hconsumer => ?_⟩
  · exact (List.nodup_append.mp hdistinct).2.2 child hmem child List.mem_cons_self rfl
  · have hsplit : arrange names (before ++ child :: after) =
        arrange names before ++ d.consumer :: arrange names after := by
      simp [arrange, List.filterMap_append, hconsumer]
    have hlt := hprecedes d hd
    rw [hsplit] at hlt harranged
    have hnew : d.consumer ∉ arrange names before := fun hmem =>
      (List.nodup_append.mp harranged).2.2 _ hmem _ List.mem_cons_self rfl
    by_contra hlate
    rw [List.idxOf_append_of_notMem hnew, List.idxOf_append_of_notMem hlate,
      List.idxOf_cons_self] at hlt
    omega

end Names

section Order
variable {children : List Work} {dependencies : List Dependency} {positions : List Nat}

theorem order_respects (h : order children dependencies = .ok positions) :
    Respects (children.map Work.name) dependencies positions := by
  have harranged := order_ok h
  refine ⟨by simpa using order_perm h, fun d hd => ?_⟩
  rw [arrange_map]
  exact (harranged.inOrder.idxOf_lt (harranged.known d hd).1 hd).2

/-- In every place stands the first of the children that may come next. -/
theorem order_first (h : order children dependencies = .ok positions) :
    Each (fun before child =>
      IsLeast {other | MayFollow (children.map Work.name) dependencies before other} child)
      positions := by
  obtain ⟨hsafe, hfound⟩ := order_cases h
  obtain ⟨hnodup, hknown⟩ := issues_safe hsafe
  obtain ⟨rfl, rfl⟩ | ⟨rfl, -⟩ := hfound
  · have heach := (order_respects h).each hnodup
    exact range_first (fun before child hnext => hnext.2.1) heach
  · have hcount : (children.map Work.name).length = children.length := List.length_map ..
    have hgreedy : Progress.Greedy (edges (children.map Work.name) dependencies) children.length
        (Progress.run children.length (edges (children.map Work.name) dependencies)) :=
      Progress.start_greedy.steps edges_bound children.length
    have hnext (before : List Nat) (child : Nat) :=
      next_iff_mayFollow hnodup (fun d hd => (hknown d hd).2.1) before child
    have hfirst := hgreedy.first
    rw [← hcount] at hfirst ⊢
    simp only [hnext] at hfirst
    exact hfirst

/-- An order is the only one that is first in every place. -/
theorem order_eq_range (h : order children dependencies = .ok positions)
    (hdeclared : ∀ d ∈ dependencies, (children.map Work.name).idxOf d.producer <
      (children.map Work.name).idxOf d.consumer) : positions = List.range children.length := by
  have hnodup := (issues_safe (order_cases h).1).1
  have hcount : (children.map Work.name).length = children.length := List.length_map ..
  have hrange : Respects (children.map Work.name) dependencies (List.range children.length) := by
    refine ⟨by rw [hcount], ?_⟩
    rw [← hcount, arrange_range]
    exact hdeclared
  have hlength : positions.length = (List.range children.length).length := (order_perm h).length_eq
  have hbehind := first_of_each (order_first h) (hrange.each hnodup) hlength
  have hbefore := first_of_each
    (range_first (fun before child hnext => hnext.2.1) (hrange.each hnodup))
    ((order_respects h).each hnodup) hlength.symm
  obtain heq | hlex := hbehind
  · exact heq
  · obtain heq | hother := hbefore
    · exact heq.symm
    · exact absurd hother (List.lex_asymm (fun hlt => by omega) hlex)

/-- Of all orders in which producers come before their consumers, the order of a job is the first,
and in each place stands the first child that may come next. So a declared order that is allowed is
kept, and so are the children of a job that has been sorted before. -/
theorem order_least (h : order children dependencies = .ok positions) :
    let names := children.map Work.name
    let sorted := arrange children positions
    (Respects names dependencies positions ∧ ∀ other, Respects names dependencies other →
      positions = other ∨ List.Lex (· < ·) positions other) ∧
    Each (fun before child => IsLeast {next | MayFollow names dependencies before next} child)
      positions ∧
    ((∀ d ∈ dependencies, names.idxOf d.producer < names.idxOf d.consumer) → sorted = children) ∧
    ∃ again, order sorted dependencies = .ok again ∧ arrange sorted again = sorted := by
  intro names sorted
  have hrespects : Respects names dependencies positions := order_respects h
  have hfirst : Each (fun before child =>
      IsLeast {next | MayFollow names dependencies before next} child) positions := order_first h
  have hnodup : names.Nodup := (Sortable.of_order h).distinct
  have hordered : ∀ d ∈ dependencies,
      (sorted.map Work.name).idxOf d.producer < (sorted.map Work.name).idxOf d.consumer := by
    have hprecedes := hrespects.2
    rwa [arrange_map] at hprecedes
  refine ⟨⟨hrespects, fun other hother => ?_⟩, hfirst, fun hdeclared => ?_, ?_⟩
  · have hlength : positions.length = other.length :=
      (hrespects.1.trans hother.1.symm).length_eq
    exact first_of_each hfirst (hother.each hnodup) hlength
  · obtain rfl := order_eq_range h hdeclared
    exact arrange_range children
  · obtain ⟨again, hagain⟩ := order_ok_perm h (order_ok h).perm.symm (.refl dependencies)
    obtain rfl := order_eq_range hagain hordered
    exact ⟨_, hagain, arrange_range sorted⟩

def courses : List Work :=
  ["bake", "lay", "mix"].map fun name => .ofSignature (.ofNat 0) name (.net "do" "Kitchen")

theorem order_least_courses :
    order courses [⟨"bake", "mix"⟩, ⟨"bake", "mix"⟩] = .ok [1, 2, 0] ∧
      Respects ["bake", "lay", "mix"] [⟨"bake", "mix"⟩, ⟨"bake", "mix"⟩] [2, 0, 1] ∧
      List.Lex (· < ·) [1, 2, 0] [2, 0, 1] := by
  have horder : order courses [⟨"bake", "mix"⟩, ⟨"bake", "mix"⟩] = .ok [1, 2, 0] := by rfl
  have hother : Respects ["bake", "lay", "mix"] [⟨"bake", "mix"⟩, ⟨"bake", "mix"⟩] [2, 0, 1] :=
    ⟨by decide, by decide⟩
  refine ⟨horder, hother, ?_⟩
  exact ((order_least horder).1.2 [2, 0, 1] hother).resolve_left (by decide)

end Order

end ServiceShell.Job

namespace ServiceShell

def Shell.executeSorted {σ : Type} (shell : Shell σ) (call : Call) (core : Core) (resuming : Bool)
    (dependencies : List Dependency) (sorted : List Work) : Run σ Attempt := do
  if runsHere core then
    let (core, children) ← runJob core resuming (shell.runners call.inner sorted)
    return ⟨⟨core, .job dependencies children⟩, .ok .inProcess⟩
  else shell.send call ⟨core, .job dependencies sorted⟩

namespace Job
variable {σ : Type}

theorem execute_sorted (shell : Shell σ) (call : Call) (core : Core) (resuming : Bool)
    {children : List Work} {dependencies : List Dependency} {positions : List Nat}
    (h : order children dependencies = .ok positions) :
    shell.execute call core resuming (.job dependencies children) =
      shell.executeSorted call core resuming dependencies (arrange children positions) := by
  unfold Shell.execute Shell.executeSorted
  rw [h, Shell.runners_eq_map, Shell.runners_eq_map]
  dsimp only
  rw [arrange_map]

/-- A job can be sorted just where the names of its children are distinct, its dependencies join two
different children, and no child waits for itself. Then it goes on with the same children and is
otherwise as it was, with every producer in front of its consumers; else it is left as it was. -/
theorem sorted_iff (children : List Work) (dependencies : List Dependency) :
    let names := children.map Work.name
    ((∃ positions, order children dependencies = .ok positions) ↔
      names.Nodup ∧
        (∀ d ∈ dependencies,
          d.consumer ∈ names ∧ d.producer ∈ names ∧ d.consumer ≠ d.producer) ∧
        ∀ name, ¬ WaitsFor dependencies name name) ∧
    (∀ positions, order children dependencies = .ok positions →
      let sorted := arrange children positions
      sorted.Perm children ∧
        (∀ d ∈ dependencies,
          (sorted.map Work.name).idxOf d.producer < (sorted.map Work.name).idxOf d.consumer) ∧
        ∀ (shell : Shell σ) (call : Call) (core : Core) (resuming : Bool),
          shell.execute call core resuming (.job dependencies children) =
            shell.executeSorted call core resuming dependencies sorted) ∧
    ∀ error, order children dependencies = .error error →
      ∀ (shell : Shell σ) (call : Call) (core : Core) (resuming : Bool) (world : World σ),
        (shell.execute call core resuming (.job dependencies children) world).value =
          ⟨⟨core, .job dependencies children⟩, .error (error.toDispatchError core.name)⟩ := by
  refine ⟨⟨?_, ?_⟩, fun positions h => ⟨(order_ok h).perm, ?_, ?_⟩, ?_⟩
  · rintro ⟨positions, h⟩
    obtain ⟨hnodup, hknown⟩ := issues_safe (order_cases h).1
    exact ⟨hnodup, hknown, (Sortable.of_order h).acyclic⟩
  · rintro ⟨hnodup, hknown, hacyclic⟩
    have hsortable : Sortable children dependencies :=
      ⟨hnodup, fun d hd => ⟨(hknown d hd).1, (hknown d hd).2.1⟩, hacyclic⟩
    exact hsortable.order_ok
  · have hprecedes := (order_respects h).2
    rwa [arrange_map] at hprecedes
  · intro shell call core resuming
    exact execute_sorted shell call core resuming h
  · intro error h shell call core resuming world
    exact (shell.execute_unordered call core resuming h world).2

theorem sorted_iff_courses :
    order courses [⟨"bake", "mix"⟩, ⟨"bake", "mix"⟩] = .ok [1, 2, 0] ∧
      (∀ name, ¬ WaitsFor [⟨"bake", "mix"⟩, ⟨"bake", "mix"⟩] name name) ∧
      ¬ ∃ positions, order courses [⟨"bake", "mix"⟩, ⟨"mix", "bake"⟩] = .ok positions := by
  have horder : order courses [⟨"bake", "mix"⟩, ⟨"bake", "mix"⟩] = .ok [1, 2, 0] := by rfl
  refine ⟨horder, ((@sorted_iff Unit _ _).1.mp ⟨_, horder⟩).2.2, fun h => ?_⟩
  have hacyclic := ((@sorted_iff Unit _ _).1.mp h).2.2
  have hbake : WaitsFor [⟨"bake", "mix"⟩, ⟨"mix", "bake"⟩] "bake" "mix" := .single (by decide)
  exact hacyclic "bake" (hbake.tail (by decide))

end Job
end ServiceShell
