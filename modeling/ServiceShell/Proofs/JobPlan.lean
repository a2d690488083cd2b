import Mathlib.Logic.Function.Basic
import ServiceShell.Proofs.JobRun
import ServiceShell.Proofs.OrderedMap
/-!
What the children of a job are to come to, and why each of them comes to it once its producers have.
-/
namespace ServiceShell

open Json (Value)

theorem lookup_of_get? {entries : OrderedMap Value} {path : String} {value : Value}
    (h : entries.get? path = some value) : lookup entries path = some value := by
  rw [lookup, h]

theorem Context.get?_withScope_congr {context other scope otherScope : Context} {path : String}
    (hentries : context.entries = other.entries)
    (h : (lookup context.entries path).isSome ∨
      ∃ value, scope.entries.get? path = some value ∧ otherScope.entries.get? path = some value) :
    (context.withScope scope).get? path = (other.withScope otherScope).get? path := by
  have hown (a b : Context) : (a.withScope b).get? path =
      (lookup a.entries path).or (b.get? path) := by
    cases hlookup : lookup a.entries path <;> simp [withScope, get?, levels, hlookup]
  rw [hown, hown, ← hentries]
  obtain hsome | ⟨value, hvalue, hother⟩ := h
  · obtain ⟨value, hvalue⟩ := Option.isSome_iff_exists.mp hsome
    rw [hvalue]
    rfl
  · have hfound (a : Context) (ha : a.entries.get? path = some value) :
        a.get? path = some value := by
      obtain ⟨name, entries, outer, request, finalized⟩ := a
      cases outer <;> simp [get?, levels, lookup_of_get? ha]
    rw [hfound scope hvalue, hfound otherScope hother]

/-- What a job starts with, and what each child owns at first and holds when it is done. -/
structure Plan where
  dependencies : List Dependency
  effects : String → Effect
  initial : OrderedMap Value
  own : String → OrderedMap Value
  final : String → OrderedMap Value

namespace Plan

def paths (plan : Plan) (name : String) : List String :=
  (plan.own name).keys ++ (plan.final name).keys

structure Separate (plan : Plan) : Prop where
  initial : ∀ name, ∀ path ∈ plan.paths name, path ∉ plan.initial.keys
  children : ∀ name other, ∀ path ∈ plan.paths name, path ∈ plan.paths other → name = other

def Keeps (plan : Plan) : Prop :=
  ∀ name, (plan.own name).keys ⊆ (plan.final name).keys

/-- A child reads only what is its own, what the job starts with, and what its producers hold. -/
def ReadsDeclared (plan : Plan) (name : String) : Prop :=
  ∀ path ∈ (plan.effects name).reads, (lookup (plan.own name) path).isSome ∨
    path ∈ plan.initial.keys ∨
      ∃ d ∈ plan.dependencies, d.consumer = name ∧ path ∈ (plan.final d.producer).keys

def Holds (plan : Plan) (held : String → OrderedMap Value) (context : Context) : Prop :=
  ∀ path value, context.entries.get? path = some value ↔
    plan.initial.get? path = some value ∨ ∃ name, (held name).get? path = some value

def Supplied (plan : Plan) (held : String → OrderedMap Value) (name : String) : Prop :=
  ∀ d ∈ plan.dependencies, d.consumer = name → held d.producer = plan.final d.producer

/-- Wherever a child with its own entries has its producers done, it ends with its final entries. -/
def Settles (plan : Plan) (name : String) : Prop :=
  ∀ held scope context, plan.Holds held scope → plan.Supplied held name →
    context.entries = plan.own name →
      (plan.effects name).entries (plan.own name) (Context.withScope context scope).get? =
        plan.final name

variable {plan : Plan} {held : String → OrderedMap Value}

/-- Whoever has its producers done finds the same at every path that it reads. -/
theorem ReadsDeclared.same_view {name : String} (h : plan.ReadsDeclared name)
    {otherHeld : String → OrderedMap Value} {scope otherScope context other : Context}
    (hholds : plan.Holds held scope) (hother : plan.Holds otherHeld otherScope)
    (hsupplied : plan.Supplied held name) (hsuppliedOther : plan.Supplied otherHeld name)
    (hown : context.entries = plan.own name) (hownOther : other.entries = plan.own name) :
    (plan.effects name).entries (plan.own name) (context.withScope scope).get? =
      (plan.effects name).entries (plan.own name) (other.withScope otherScope).get? := by
  refine (plan.effects name).reads_only _ _ _ fun path hpath => ?_
  refine Context.get?_withScope_congr (hown.trans hownOther.symm) ?_
  obtain howned | hkey | ⟨d, hd, hconsumer, hkey⟩ := h path hpath
  · exact .inl (hown ▸ howned)
  · obtain ⟨value, hvalue⟩ := Option.isSome_iff_exists.mp ((OrderedMap.mem_keys_iff _ _).mp hkey)
    exact .inr ⟨value, (hholds path value).mpr (.inl hvalue), (hother path value).mpr (.inl hvalue)⟩
  · obtain ⟨value, hvalue⟩ := Option.isSome_iff_exists.mp ((OrderedMap.mem_keys_iff _ _).mp hkey)
    have hheld : (held d.producer).get? path = some value := by
      rw [hsupplied d hd hconsumer, hvalue]
    have hheldOther : (otherHeld d.producer).get? path = some value := by
      rw [hsuppliedOther d hd hconsumer, hvalue]
    exact .inr ⟨value, (hholds path value).mpr (.inr ⟨_, hheld⟩),
      (hother path value).mpr (.inr ⟨_, hheldOther⟩)⟩

theorem Holds.overlay (hseparate : plan.Separate) {scope context : Context} {name : String}
    (hwithin : ∀ other, (held other).keys ⊆ plan.paths other) (h : plan.Holds held scope)
    (hpaths : context.entries.keys ⊆ plan.paths name)
    (hgrown : (held name).keys ⊆ context.entries.keys) :
    plan.Holds (Function.update held name context.entries) (scope.overlay context) := by
  intro path value
  have hoverlay : (scope.overlay context).entries.get? path =
      (context.entries.get? path).or (scope.entries.get? path) := OrderedMap.get?_overlay ..
  rw [hoverlay]
  cases hfound : context.entries.get? path with
  | some found =>
    have hkey : path ∈ plan.paths name :=
      hpaths ((OrderedMap.mem_keys_iff _ _).mpr (by rw [hfound]; rfl))
    constructor
    · intro hvalue
      refine .inr ⟨name, ?_⟩
      rw [Function.update_self, hfound]
      exact hvalue
    · rintro (hvalue | ⟨other, hvalue⟩)
      · have hinitial : path ∈ plan.initial.keys :=
          (OrderedMap.mem_keys_iff _ _).mpr (by rw [hvalue]; rfl)
        exact absurd hinitial (hseparate.initial name path hkey)
      · by_cases hname : other = name
        · rw [hname, Function.update_self, hfound] at hvalue
          exact hvalue
        · rw [Function.update_of_ne hname] at hvalue
          have hotherKey : path ∈ plan.paths other :=
            hwithin other ((OrderedMap.mem_keys_iff _ _).mpr (by rw [hvalue]; rfl))
          exact absurd (hseparate.children other name path hotherKey hkey) hname
  | none =>
    have hnone : (held name).get? path = none :=
      (OrderedMap.get?_eq_none_iff _ _).mpr fun hkey =>
        (OrderedMap.get?_eq_none_iff _ _).mp hfound (hgrown hkey)
    rw [Option.none_or, h path value]
    refine or_congr_right (exists_congr fun other => ?_)
    by_cases hname : other = name
    · rw [hname, Function.update_self, hfound, hnone]
    · rw [Function.update_of_ne hname]

/-- What a context holds is determined by what was put into it. -/
theorem Holds.get?_eq {context other : Context} (h : plan.Holds held context)
    (hother : plan.Holds held other) (path : String) :
    context.entries.get? path = other.entries.get? path := by
  refine Option.ext fun value => ?_
  rw [h path value, hother path value]

def Witnessed (plan : Plan) (name : String) : Prop :=
  ∃ held scope context, plan.Holds held scope ∧ plan.Supplied held name ∧
    context.entries = plan.own name ∧
      (plan.effects name).entries (plan.own name) (Context.withScope context scope).get? =
        plan.final name

theorem Witnessed.settles {name : String} (h : plan.Witnessed name)
    (hreads : plan.ReadsDeclared name) : plan.Settles name := by
  obtain ⟨held, scope, context, hholds, hsupplied, hown, hfinal⟩ := h
  intro otherHeld otherScope other hother hsuppliedOther hownOther
  rw [← hfinal]
  exact hreads.same_view hother hholds hsuppliedOther hsupplied hownOther hown

/-- What a child brings into an exert: what it has put into the context before, as far as it is not
left out with its final entries. -/
structure Brings (plan : Plan) (held : String → OrderedMap Value) (resuming : Bool) (child : Work) :
    Prop where
  done : child.LeftOut resuming →
    child.core.context.entries = plan.final child.name ∧ held child.name = plan.final child.name
  own : ¬ child.LeftOut resuming →
    child.core.context.entries = plan.own child.name ∧
      (held child.name).keys ⊆ (plan.own child.name).keys

/-- What an exert has made of a child: it fails with what it owns, or is done with what it is to
hold in the end, and has put that into the context of the job. -/
structure Left (plan : Plan) (held : String → OrderedMap Value) (ended : Work) : Prop where
  held : held ended.name = ended.core.context.entries
  failed : ended.core.hasFailed → ended.core.context.entries = plan.own ended.name
  done : ¬ ended.core.hasFailed →
    ended.core.status = .done ∧ ended.core.context.entries = plan.final ended.name

/-- The invariant of an exert that has come through the children named `earlier`, with `children`
yet to come: those that are not to fail have put into the context what they hold in the end. -/
structure Stage (plan : Plan) (resuming : Bool) (failed : String → Prop)
    (held : String → OrderedMap Value) (earlier : List String) (context : Context)
    (children : List Work) : Prop where
  holds : plan.Holds held context
  within : ∀ name, (held name).keys ⊆ plan.paths name
  complete : ∀ name ∈ earlier, ¬ failed name → held name = plan.final name
  brings : ∀ child ∈ children, plan.Brings held resuming child
  nodup : (children.map Work.name).Nodup
  inOrder : Job.InOrder (fun child other => ⟨child, other⟩ ∈ plan.dependencies) earlier
    (children.map Work.name)

namespace Stage
variable {resuming : Bool} {failed : String → Prop} {earlier : List String} {context : Context}
  {child ended : Work} {rest : List Work}

theorem skip (h : plan.Stage resuming failed held earlier context (child :: rest))
    (hskip : child.LeftOut resuming) :
    plan.Stage resuming failed held (earlier ++ [child.name]) context rest := by
  have hheld := ((h.brings child (List.mem_cons_self ..)).done hskip).2
  refine ⟨h.holds, h.within, fun name hname hnot => ?_, fun other hother => ?_, ?_, h.inOrder.2⟩
  · obtain hearlier | hlast := List.mem_append.mp hname
    · exact h.complete name hearlier hnot
    · obtain rfl := List.mem_singleton.mp hlast
      exact hheld
  · exact h.brings other (List.mem_cons_of_mem _ hother)
  · exact (List.nodup_cons.mp h.nodup).2

/-- A child that runs fails with its own entries, or is done with its final ones: its producers are
done, for it would have failed with them. -/
theorem outcome (h : plan.Stage resuming failed held earlier context (child :: rest))
    (hskip : ¬ child.LeftOut resuming)
    (hclosed : ∀ d ∈ plan.dependencies, failed d.producer → failed d.consumer)
    (hfits : (plan.effects child.name).Fits child context ended.core)
    (hfailed : ended.core.hasFailed ↔ failed child.name)
    (hfinal : plan.Settles child.name ∨
      (¬ ended.core.hasFailed → ended.core.context.entries = plan.final child.name)) :
    (ended.core.hasFailed → ended.core.context.entries = plan.own child.name) ∧
      (¬ ended.core.hasFailed → ended.core.status = .done ∧
        ended.core.context.entries = plan.final child.name ∧ plan.Witnessed child.name) := by
  have hown := ((h.brings child (List.mem_cons_self ..)).own hskip).1
  obtain ⟨-, hacts⟩ := hfits
  constructor
  · intro hfails
    obtain ⟨-, hentries⟩ | ⟨hdone, -⟩ := hacts
    · rw [hentries, hown]
    · exact absurd hfails (Core.not_hasFailed_of_done hdone)
  · intro hnot
    obtain ⟨hfails, -⟩ | ⟨hdone, hentries⟩ := hacts
    · exact absurd hfails hnot
    · rw [hown] at hentries
      -- had one of its producers failed, the child would have failed with it
      have hsupplied : plan.Supplied held child.name := fun d hd hconsumer => by
        refine h.complete _ (h.inOrder.1 d.producer (hconsumer ▸ hd)) fun hproducer => hnot ?_
        exact hfailed.mpr (hconsumer ▸ hclosed d hd hproducer)
      have hfinally : ended.core.context.entries = plan.final child.name := by
        obtain hsettles | hdefined := hfinal
        · rw [hentries]
          exact hsettles held context child.core.context h.holds hsupplied hown
        · exact hdefined hnot
      exact ⟨hdone, hfinally, held, context, child.core.context, h.holds, hsupplied, hown,
        hentries.symm.trans hfinally⟩

theorem run (hseparate : plan.Separate) (hkeeps : plan.Keeps)
    (h : plan.Stage resuming failed held earlier context (child :: rest))
    (hskip : ¬ child.LeftOut resuming)
    (hfails : failed child.name → ended.core.context.entries = plan.own child.name)
    (hdone : ¬ failed child.name → ended.core.context.entries = plan.final child.name) :
    plan.Stage resuming failed (Function.update held child.name ended.core.context.entries)
      (earlier ++ [child.name]) (context.overlay ended.core.context) rest := by
  obtain ⟨hnew, hnodup⟩ := List.nodup_cons.mp h.nodup
  have hheld := ((h.brings child (List.mem_cons_self ..)).own hskip).2
  have hkeys : ended.core.context.entries.keys ⊆ plan.paths child.name ∧
      (held child.name).keys ⊆ ended.core.context.entries.keys := by
    by_cases hcase : failed child.name
    · rw [hfails hcase]
      exact ⟨List.subset_append_left .., hheld⟩
    · rw [hdone hcase]
      exact ⟨List.subset_append_right .., List.Subset.trans hheld (hkeeps child.name)⟩
  refine ⟨h.holds.overlay hseparate h.within hkeys.1 hkeys.2, fun name => ?_,
    fun name hname hnot => ?_, fun other hother => ?_, hnodup, h.inOrder.2⟩
  · by_cases heq : name = child.name
    · rw [heq, Function.update_self]
      exact hkeys.1
    · rw [Function.update_of_ne heq]
      exact h.within name
  · by_cases heq : name = child.name
    · rw [heq, Function.update_self]
      exact hdone (heq ▸ hnot)
    · rw [Function.update_of_ne heq]
      refine h.complete name ?_ hnot
      simpa [heq] using hname
  · have hne : other.name ≠ child.name := fun heq => hnew (heq ▸ List.mem_map_of_mem hother)
    have hbrings := h.brings other (List.mem_cons_of_mem _ hother)
    have hsame : Function.update held child.name ended.core.context.entries other.name =
        held other.name := Function.update_of_ne hne _ _
    exact ⟨fun hleft => hsame ▸ hbrings.done hleft, fun hnot => hsame ▸ hbrings.own hnot⟩

end Stage

structure Follows (plan : Plan) (resuming : Bool) (failed : String → Prop)
    (held : String → OrderedMap Value) (children : List Work) (later : String → OrderedMap Value)
    (last : Context) (endeds : List Work) : Prop where
  holds : plan.Holds later last
  left : ∀ ended ∈ endeds, plan.Left later ended
  frame : ∀ name, name ∉ children.map Work.name → later name = held name
  witnessed : ∀ child ∈ children, ¬ child.LeftOut resuming → ¬ failed child.name →
    plan.Witnessed child.name

theorem Follows.cons {resuming : Bool} {failed : String → Prop}
    {now later : String → OrderedMap Value} {last : Context} {child ended : Work}
    {rest endeds : List Work} (h : plan.Follows resuming failed now rest later last endeds)
    (hname : ended.name = child.name) (hnew : child.name ∉ rest.map Work.name)
    (hframe : ∀ name, name ≠ child.name → now name = held name) (hleft : plan.Left now ended)
    (hwitnessed : ¬ child.LeftOut resuming → ¬ failed child.name → plan.Witnessed child.name) :
    plan.Follows resuming failed held (child :: rest) later last (ended :: endeds) := by
  refine ⟨h.holds, fun other hother => ?_, fun name hother => ?_, fun other hother => ?_⟩
  · obtain rfl | hother := List.mem_cons.mp hother
    · exact ⟨(h.frame _ (hname ▸ hnew)).trans hleft.held, hleft.failed, hleft.done⟩
    · exact h.left other hother
  · rw [List.map_cons, List.mem_cons, not_or] at hother
    rw [h.frame name hother.2, hframe name hother.1]
  · obtain rfl | hother := List.mem_cons.mp hother
    · exact hwitnessed
    · exact h.witnessed other hother

/-- Where children fail with their producers, each child fails or comes to what it is to hold. -/
theorem follows (hseparate : plan.Separate) (hkeeps : plan.Keeps) {resuming : Bool}
    (failed : String → Prop)
    (hclosed : ∀ d ∈ plan.dependencies, failed d.producer → failed d.consumer)
    {context last : Context} {children endeds : List Work}
    (hran : Ran plan.effects resuming context children last endeds)
    (hfailed : ∀ ended ∈ endeds, ended.core.hasFailed ↔ failed ended.name)
    (hfinal : (∀ child ∈ children, plan.Settles child.name) ∨
      ∀ ended ∈ endeds, ¬ ended.core.hasFailed →
        ended.core.context.entries = plan.final ended.name)
    {earlier : List String} (hstage : plan.Stage resuming failed held earlier context children) :
    ∃ later, plan.Follows resuming failed held children later last endeds := by
  -- the stage moves on by one child at a time
  induction hran generalizing held earlier with
  | nil context => exact ⟨held, hstage.holds, by simp, by simp, by simp⟩
  | @skip context last child rest endeds hskip hrest ih =>
    have hnew := (List.nodup_cons.mp hstage.nodup).1
    obtain ⟨hentries, hheld⟩ := (hstage.brings child (List.mem_cons_self ..)).done hskip
    obtain ⟨later, hlater⟩ := ih (fun ended h => hfailed ended (List.mem_cons_of_mem _ h))
      (hfinal.imp (fun h other ho => h other (List.mem_cons_of_mem _ ho))
        fun h ended he => h ended (List.mem_cons_of_mem _ he)) (hstage.skip hskip)
    refine ⟨later, hlater.cons rfl hnew (fun _ _ => rfl) ⟨hheld.trans hentries.symm, ?_, ?_⟩ ?_⟩
    · exact fun hfails => absurd hfails (Core.not_hasFailed_of_done hskip.2)
    · exact fun _ => ⟨hskip.2, hentries⟩
    · exact fun hnot => absurd hskip hnot
  | @run context last child ended rest endeds hskip hfits hrest ih =>
    have hname : ended.name = child.name := hfits.1
    have hnew := (List.nodup_cons.mp hstage.nodup).1
    have hisFailed : ended.core.hasFailed ↔ failed child.name :=
      hname ▸ hfailed ended (List.mem_cons_self ..)
    obtain ⟨hfails, hdone⟩ := hstage.outcome hskip hclosed hfits hisFailed
      (hfinal.imp (fun h => h child (List.mem_cons_self ..))
        fun h => hname ▸ h ended (List.mem_cons_self ..))
    obtain ⟨later, hlater⟩ := ih (fun ended h => hfailed ended (List.mem_cons_of_mem _ h))
      (hfinal.imp (fun h other ho => h other (List.mem_cons_of_mem _ ho))
        fun h ended he => h ended (List.mem_cons_of_mem _ he))
      (hstage.run hseparate hkeeps hskip (fun hcase => hfails (hisFailed.mpr hcase))
        fun hcase => (hdone fun h => hcase (hisFailed.mp h)).2.1)
    refine ⟨later, hlater.cons hname hnew (fun name h => Function.update_of_ne h _ _)
      ⟨?_, ?_, ?_⟩ ?_⟩
    · rw [hname, Function.update_self]
    · exact fun hcase => hname ▸ hfails hcase
    · exact fun hcase => ⟨(hdone hcase).1, hname ▸ (hdone hcase).2.1⟩
    · exact fun _ hnot => (hdone fun hcase => hnot (hisFailed.mp hcase)).2.2

theorem Left.within {ended : Work} (h : plan.Left held ended) :
    (held ended.name).keys ⊆ plan.paths ended.name := by
  rw [h.held]
  by_cases hcase : ended.core.hasFailed
  · rw [h.failed hcase]
    exact List.subset_append_left ..
  · rw [(h.done hcase).2]
    exact List.subset_append_right ..

/-- Where no child fails, the context ends with what all of them are to hold. -/
theorem Follows.holds_final {resuming : Bool} {failed : String → Prop}
    {later : String → OrderedMap Value} {last : Context} {children endeds : List Work}
    (h : plan.Follows resuming failed held children later last endeds)
    (hnames : endeds.map Work.name = children.map Work.name)
    (hnone : ∀ ended ∈ endeds, ¬ ended.core.hasFailed)
    (hothers : ∀ name, name ∉ children.map Work.name → held name = plan.final name) :
    plan.Holds plan.final last := by
  have hlater : later = plan.final := by
    funext name
    by_cases hname : name ∈ children.map Work.name
    · obtain ⟨ended, hended, rfl⟩ := List.mem_map.mp (hnames ▸ hname)
      have hleft := h.left ended hended
      rw [hleft.held, (hleft.done (hnone ended hended)).2]
    · rw [h.frame name hname, hothers name hname]
  exact hlater ▸ h.holds

end Plan

end ServiceShell
