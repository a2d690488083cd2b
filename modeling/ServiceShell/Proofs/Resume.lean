import ServiceShell.Proofs.JobPlan
import ServiceShell.Proofs.Refusal
/-!
A job that is resumed after some of its children have failed, compared with an exert in which no
child fails.
-/
namespace ServiceShell

open Json (Value)

def Work.entriesOf (work : Work) (name : String) : OrderedMap Value :=
  ((work.child? name).map fun child => child.core.context.entries).getD .empty

theorem Work.eq_of_body {work : Work} {body : Body Work} (h : work.body = body) :
    work = ⟨work.core, body⟩ := by
  cases work
  exact congrArg (Work.mk _) h

/-- Two units that differ at most in what their operations do. -/
structure Work.SameData (unit other : Work) : Prop where
  name : unit.name = other.name
  status : unit.core.status = other.core.status
  entries : unit.core.context.entries = other.core.context.entries

structure Exert (σ : Type) where
  job : Work
  txn : Option Transaction
  world : World σ

namespace Exert
variable {σ : Type} (shell : Shell σ) (args : List Argument) (exert : Exert σ)

def outcome : Dispatched := (shell.trySubmit exert.job exert.txn args exert.world).value

def returned : Work := (exert.outcome shell args).work

def ready : Work :=
  match Shell.prepare args exert.job with
  | .ok ready => ready
  | .error _ => exert.job

def start : OrderedMap Value :=
  (Depender.realizeAll args (exert.ready args).core.dependers
    (exert.ready args).core.context).1.entries

def innerCall : Call := ⟨0, exert.txn, none, []⟩

/-- The dependers of the job change nothing when it is exerted again. -/
def Steady : Prop :=
  let context := (exert.returned shell args).core.context
  ∀ path, (Depender.realizeAll args (exert.ready args).core.dependers
    { context with entries := context.entries.putAll (Argument.entries args) }).1.entries.get?
      path = context.entries.get? path

/-- A child with a producer that failed has failed too. -/
def FailsTogether (dependencies : List Dependency) : Prop :=
  ∀ d ∈ dependencies, ∀ producer ∈ (exert.returned shell args).children,
    ∀ consumer ∈ (exert.returned shell args).children, producer.name = d.producer →
      consumer.name = d.consumer → producer.core.hasFailed → consumer.core.hasFailed

end Exert

namespace Exert
variable {σ : Type} {shell : Shell σ} {args : List Argument} {exert : Exert σ}

theorem prepare_of_ok (h : (exert.outcome shell args).result = .ok ()) :
    Shell.prepare args exert.job = .ok (exert.ready args) := by
  unfold ready
  cases hprepare : Shell.prepare args exert.job with
  | ok ready => rfl
  | error e =>
    have hvalue : exert.outcome shell args = (shell.supervise ⟨0, exert.txn, none, args⟩ exert.job
        (shell.executePrepared ⟨0, exert.txn, none, args⟩) exert.world).value := rfl
    rw [hvalue, shell.supervise_value (Nat.zero_le _),
      shell.executePrepared_error (Call.mk 0 exert.txn none args) hprepare] at h
    cases h

/-- A job that was refused is not done. -/
theorem ok_of_done (h : (exert.returned shell args).core.status = .done) :
    (exert.outcome shell args).result = .ok () := by
  cases hresult : (exert.outcome shell args).result with
  | ok => rfl
  | error e =>
    obtain ⟨events, -, hrefused⟩ := shell.dispatch_refuses ⟨0, exert.txn, none, args⟩ exert.job rfl
      exert.world e hresult
    have hfailed : (exert.returned shell args).core.status = .failed := hrefused.status
    rw [hfailed] at h
    cases h

structure Through (shell : Shell σ) (args : List Argument) (dependencies : List Dependency)
    (effects : String → Effect) (exert : Exert σ) (context : Context) (children : List Work) :
    Prop where
  starts : context.entries = exert.start args
  arranged : Job.Arranged dependencies (exert.ready args).children children
  ran : Ran effects (exert.ready args).core.status.isResumable context children
    (exert.returned shell args).core.context (exert.returned shell args).children
  all_done : (exert.returned shell args).core.status = .done →
    ∀ child ∈ (exert.returned shell args).children, ¬ child.core.hasFailed
  core : (exert.returned shell args).core = Core.setStatus
    { (exert.ready args).core with context := (exert.returned shell args).core.context }
      (exert.returned shell args).core.status

theorem through {dependencies : List Dependency} {effects : String → Effect}
    (hok : (exert.outcome shell args).result = .ok ())
    (hjob : (exert.ready args).body = .job dependencies (exert.ready args).children)
    (hhere : Shell.runsHere (exert.ready args).core)
    (hcarries : ∀ child ∈ (exert.ready args).children,
      ¬ child.LeftOut (exert.ready args).core.status.isResumable →
        shell.Carries exert.innerCall (effects child.name) child) :
    ∃ context children, exert.Through shell args dependencies effects context children := by
  have hready := Work.eq_of_body hjob
  obtain ⟨context, positions, hrealized, horder, hwork⟩ :=
    shell.trySubmit_job ((prepare_of_ok hok).trans (congrArg Except.ok hready)) hhere exert.txn
      exert.world hok
  have harranged := Job.order_ok horder
  obtain ⟨hran, hall⟩ := shell.runJobChildren_ran
    (fun child hchild => hcarries child (harranged.perm.mem_iff.mp hchild))
      (exert.ready args).core.name context exert.world
  dsimp only at hwork
  unfold innerCall at hran hall
  generalize (Shell.runJobChildren _ _ _ _ exert.world).value = run at hran hall hwork
  have hreturned : exert.returned shell args = _ := hwork
  refine ⟨context, Job.arrange (exert.ready args).children positions, ?_, harranged, ?_, ?_, ?_⟩
  · rw [start, hrealized]
  · rw [hreturned]
    exact hran
  · rw [hreturned]
    intro hdone
    refine hall ?_
    cases hfailed : run.failed with
    | nil => rfl
    | cons => simp [hfailed, Core.setStatus] at hdone
  · rw [hreturned]
    rfl

namespace Through
variable {dependencies : List Dependency} {effects : String → Effect} {context : Context}
  {children : List Work}

theorem mem_names (h : exert.Through shell args dependencies effects context children)
    (name : String) : name ∈ (exert.returned shell args).children.map Work.name ↔
      name ∈ (exert.ready args).children.map Work.name := by
  rw [h.ran.names]
  exact (h.arranged.perm.map Work.name).mem_iff

theorem nodup (h : exert.Through shell args dependencies effects context children) :
    ((exert.returned shell args).children.map Work.name).Nodup := by
  rw [h.ran.names]
  exact h.arranged.nodup

theorem ready_nodup (h : exert.Through shell args dependencies effects context children) :
    ((exert.ready args).children.map Work.name).Nodup :=
  (h.arranged.perm.map Work.name).nodup_iff.mp h.arranged.nodup

end Through
end Exert

theorem Work.entriesOf_child {work child : Work} (hnodup : (work.children.map Work.name).Nodup)
    (hchild : child ∈ work.children) : work.entriesOf child.name = child.core.context.entries := by
  have hfind : work.child? child.name = some child := by
    unfold Work.child?
    cases hfound : work.children.find? (·.name = child.name) with
    | none => simpa using List.find?_eq_none.mp hfound child hchild
    | some other =>
      have hname : other.name = child.name := by simpa using List.find?_some hfound
      have hother := List.mem_of_find?_eq_some hfound
      rw [List.inj_on_of_nodup_map hnodup hother hchild hname]
  rw [entriesOf, hfind]
  rfl

theorem Work.entriesOf_unknown {work : Work} {name : String}
    (hname : name ∉ work.children.map Work.name) : work.entriesOf name = .empty := by
  have hfind : work.child? name = none :=
    List.find?_eq_none.mpr fun child hchild => by
      have hother : child.name ≠ name := fun heq => hname (heq ▸ List.mem_map_of_mem hchild)
      simpa using hother
  rw [entriesOf, hfind]
  rfl

/-- What the children of a job are to come to, by an exert in which none of them fails. -/
def Plan.ofClean {σ : Type} (shell : Shell σ) (args : List Argument)
    (dependencies : List Dependency) (effects : String → Effect) (first clean : Exert σ) :
    Plan where
  dependencies
  effects
  initial := first.start args
  own := (first.ready args).entriesOf
  final := (clean.returned shell args).entriesOf

/-- A job of which children failed in a first exert, the job that was returned in a later exert that
ends done, and the original job in an exert in which none fails. The operations of the children act
by the effects in all three, but need not fail alike. -/
structure Resumption {σ : Type} (shell : Shell σ) (args : List Argument)
    (dependencies : List Dependency) (effects : String → Effect) (first resumed clean : Exert σ) :
    Prop where
  -- the first exert, which some children fail
  first_job : (first.ready args).body = .job dependencies (first.ready args).children
  first_here : Shell.runsHere (first.ready args).core
  first_new : (first.ready args).core.status.isResumable = false
  first_failed : (first.outcome shell args).result = .ok () ∧
    (first.returned shell args).core.status = .failed
  first_carries : ∀ child ∈ (first.ready args).children,
    shell.Carries first.innerCall (effects child.name) child
  -- the exert of the job that the first one returned
  resumed_core : resumed.job.core = (first.returned shell args).core
  resumed_job : resumed.job.body = .job dependencies resumed.job.children
  resumed_children : List.Forall₂ Work.SameData (first.returned shell args).children
    resumed.job.children
  resumed_here : Shell.runsHere (resumed.ready args).core
  resumed_done : (resumed.returned shell args).core.status = .done
  resumed_carries : ∀ child ∈ resumed.job.children, child.core.status ≠ .done →
    shell.Carries resumed.innerCall (effects child.name) child
  -- the exert of the original job that no child fails
  clean_core : (clean.ready args).core = (first.ready args).core
  clean_job : (clean.ready args).body = .job dependencies (clean.ready args).children
  clean_children : List.Forall₂ Work.SameData (first.ready args).children
    (clean.ready args).children
  clean_done : (clean.returned shell args).core.status = .done
  clean_carries : ∀ child ∈ (clean.ready args).children,
    shell.Carries clean.innerCall (effects child.name) child
  -- what the children may read and write
  reads : ∀ child ∈ (first.ready args).children,
    (Plan.ofClean shell args dependencies effects first clean).ReadsDeclared child.name
  separate : (Plan.ofClean shell args dependencies effects first clean).Separate

theorem Shell.prepare_resumed {args : List Argument} {work ready : Work}
    (h : prepare args work = .ok ready) (hstate : work.core.control.state ≠ .initial) :
    ready.body = work.body ∧ ready.core.status = work.core.status ∧
      ready.core.dependers = work.core.dependers ∧ ready.core.context =
        { work.core.context with
          entries := work.core.context.entries.putAll (Argument.entries args) } := by
  obtain ⟨fidelities, rfl⟩ := prepare_unreset hstate h
  exact ⟨rfl, rfl, rfl, rfl⟩

theorem Work.SameData.names {units others : List Work} (h : List.Forall₂ SameData units others) :
    units.map Work.name = others.map Work.name := by
  induction h with
  | nil => rfl
  | cons hdata _ ih => rw [List.map_cons, List.map_cons, hdata.name, ih]

theorem Work.SameData.exists_left {units others : List Work}
    (h : List.Forall₂ SameData units others) :
    ∀ other ∈ others, ∃ unit ∈ units, SameData unit other := by
  induction h with
  | nil => simp
  | @cons unit other units others hdata _ ih =>
    intro wanted hwanted
    obtain rfl | hwanted := List.mem_cons.mp hwanted
    · exact ⟨unit, List.mem_cons_self .., hdata⟩
    · obtain ⟨found, hfound, hsame⟩ := ih wanted hwanted
      exact ⟨found, List.mem_cons_of_mem _ hfound, hsame⟩

/-- What an exert has left of a child is what a resumed exert starts from. -/
theorem Plan.Left.brings {plan : Plan} {held : String → OrderedMap Value} {unit child : Work}
    (h : plan.Left held unit) (hsame : unit.SameData child) : plan.Brings held true child := by
  constructor
  · rintro ⟨-, hdone⟩
    obtain ⟨-, hentries⟩ := h.done (Core.not_hasFailed_of_done (hsame.status.trans hdone))
    rw [← hsame.name, ← hsame.entries]
    exact ⟨hentries, h.held.trans hentries⟩
  · intro hruns
    have hfailed : unit.core.hasFailed := by
      by_contra hcase
      exact hruns ⟨rfl, hsame.status.symm.trans (h.done hcase).1⟩
    have hown := h.failed hfailed
    rw [← hsame.name, ← hsame.entries]
    exact ⟨hown, (h.held.trans hown) ▸ List.Subset.refl _⟩

namespace Resumption
variable {σ : Type} {shell : Shell σ} {args : List Argument} {dependencies : List Dependency}
  {effects : String → Effect} {first resumed clean : Exert σ}

theorem first_through (h : Resumption shell args dependencies effects first resumed clean) :
    ∃ context children, first.Through shell args dependencies effects context children :=
  Exert.through h.first_failed.1 h.first_job h.first_here fun child hchild _ =>
    h.first_carries child hchild

theorem clean_through (h : Resumption shell args dependencies effects first resumed clean) :
    ∃ context children, clean.Through shell args dependencies effects context children := by
  have hhere : Shell.runsHere (clean.ready args).core := h.clean_core ▸ h.first_here
  exact Exert.through (Exert.ok_of_done h.clean_done) h.clean_job hhere fun child hchild _ =>
    h.clean_carries child hchild

theorem ready_names (h : Resumption shell args dependencies effects first resumed clean)
    (name : String) : name ∈ (clean.returned shell args).children.map Work.name ↔
      name ∈ (first.ready args).children.map Work.name := by
  obtain ⟨context, children, hthrough⟩ := h.clean_through
  rw [hthrough.mem_names, Work.SameData.names h.clean_children]

theorem final_unknown (h : Resumption shell args dependencies effects first resumed clean)
    {name : String} (hname : name ∉ (first.ready args).children.map Work.name) :
    (Plan.ofClean shell args dependencies effects first clean).final name = .empty :=
  Work.entriesOf_unknown fun hmem => hname ((h.ready_names name).mp hmem)

/-- Before any child of a new job has run. -/
theorem stage_new (h : Resumption shell args dependencies effects first resumed clean)
    {context : Context} (hstarts : context.entries = first.start args) (failed : String → Prop)
    {units children : List Work}
    (hunits : List.Forall₂ Work.SameData (first.ready args).children units)
    (harranged : Job.Arranged dependencies units children) :
    (Plan.ofClean shell args dependencies effects first clean).Stage false failed (fun _ => .empty)
      [] context children := by
  have hempty : (OrderedMap.empty : OrderedMap Value).keys = [] := rfl
  have hnone (path : String) : (OrderedMap.empty : OrderedMap Value).get? path = none := rfl
  refine ⟨fun path value => ?_, fun name => ?_, by simp,
    fun child hchild => ⟨?_, fun _ => ⟨?_, ?_⟩⟩, harranged.nodup, harranged.inOrder⟩
  · simp [hstarts, Plan.ofClean, hnone]
  · exact List.nil_subset _
  · exact fun hleft => absurd hleft.1 (by simp)
  · obtain ⟨unit, hunit, hsame⟩ := Work.SameData.exists_left hunits child
      (harranged.perm.mem_iff.mp hchild)
    obtain ⟨_, _, hthrough⟩ := h.first_through
    have hown := Work.entriesOf_child hthrough.ready_nodup hunit
    rw [hsame.name, hsame.entries] at hown
    exact hown.symm
  · exact List.nil_subset _

/-- In the exert without failures every child settles, and the job ends with what they all hold. -/
theorem clean_follows (h : Resumption shell args dependencies effects first resumed clean)
    (hkeeps : (Plan.ofClean shell args dependencies effects first clean).Keeps) :
    let plan := Plan.ofClean shell args dependencies effects first clean
    (∀ name ∈ (first.ready args).children.map Work.name, plan.Settles name) ∧
      plan.Holds plan.final (clean.returned shell args).core.context := by
  intro plan
  have hnew : (clean.ready args).core.status.isResumable = false := h.clean_core ▸ h.first_new
  obtain ⟨context, children, hthrough⟩ := h.clean_through
  have hran := hthrough.ran
  rw [hnew] at hran
  have hstarts : context.entries = first.start args := by
    rw [hthrough.starts, Exert.start, h.clean_core, Exert.start]
  have hnone := hthrough.all_done h.clean_done
  obtain ⟨held, hfollows⟩ := Plan.follows h.separate hkeeps (fun _ => False) (by simp) hran
    (fun ended hended => by simpa using hnone ended hended)
    (.inr fun ended hended _ => (Work.entriesOf_child hthrough.nodup hended).symm)
    (h.stage_new hstarts _ h.clean_children hthrough.arranged)
  have hnames (name : String) : name ∈ children.map Work.name ↔
      name ∈ (first.ready args).children.map Work.name := by
    rw [← hran.names, h.ready_names]
  refine ⟨fun name hname => ?_, hfollows.holds_final hran.names hnone fun name hname => ?_⟩
  · obtain ⟨child, hchild, rfl⟩ := List.mem_map.mp ((hnames name).mpr hname)
    obtain ⟨unit, hunit, hsame⟩ := List.mem_map.mp hname
    have hruns : ¬ child.LeftOut false := fun hleft => by simpa using hleft.1
    have hwitnessed := hfollows.witnessed child hchild hruns (by simp)
    exact hwitnessed.settles (hsame ▸ h.reads unit hunit)
  · exact (h.final_unknown fun hmem => hname ((hnames name).mpr hmem)).symm

/-- In the first exert each child has failed, or has come to what it holds in the end. -/
theorem first_follows (h : Resumption shell args dependencies effects first resumed clean)
    (hkeeps : (Plan.ofClean shell args dependencies effects first clean).Keeps)
    (htogether : first.FailsTogether shell args dependencies) :
    let plan := Plan.ofClean shell args dependencies effects first clean
    ∃ held, plan.Holds held (first.returned shell args).core.context ∧
      (∀ child ∈ (first.returned shell args).children, plan.Left held child) ∧
      ∀ name, name ∉ (first.ready args).children.map Work.name → held name = .empty := by
  intro plan
  obtain ⟨hsettles, -⟩ := h.clean_follows hkeeps
  obtain ⟨context, children, hthrough⟩ := h.first_through
  have hran := hthrough.ran
  rw [h.first_new] at hran
  -- names are distinct, so a name stands for one child and has failed if that one has
  let failed : String → Prop := fun name =>
    ∃ child ∈ (first.returned shell args).children, child.name = name ∧ child.core.hasFailed
  have hclosed : ∀ d ∈ dependencies, failed d.producer → failed d.consumer := by
    rintro d hd ⟨producer, hproducer, hname, hfailed⟩
    have hmem : d.consumer ∈ (first.returned shell args).children.map Work.name := by
      rw [hran.names]
      exact (hthrough.arranged.known d hd).1
    obtain ⟨consumer, hconsumer, hconsumerName⟩ := List.mem_map.mp hmem
    exact ⟨consumer, hconsumer, hconsumerName,
      htogether d hd producer hproducer consumer hconsumer hname hconsumerName hfailed⟩
  have hfailed : ∀ ended ∈ (first.returned shell args).children,
      ended.core.hasFailed ↔ failed ended.name := by
    intro ended hended
    constructor
    · exact fun hfails => ⟨ended, hended, rfl, hfails⟩
    · rintro ⟨child, hchild, hname, hfails⟩
      rw [← List.inj_on_of_nodup_map hthrough.nodup hchild hended hname]
      exact hfails
  have hnames (name : String) : name ∈ children.map Work.name ↔
      name ∈ (first.ready args).children.map Work.name :=
    (hthrough.arranged.perm.map Work.name).mem_iff
  have hsame : List.Forall₂ Work.SameData (first.ready args).children (first.ready args).children :=
    List.forall₂_same.mpr fun child _ => ⟨rfl, rfl, rfl⟩
  obtain ⟨held, hfollows⟩ := Plan.follows h.separate hkeeps failed hclosed hran hfailed
    (.inl fun child hchild => hsettles _ ((hnames _).mp (List.mem_map_of_mem hchild)))
    (h.stage_new hthrough.starts failed hsame hthrough.arranged)
  exact ⟨held, hfollows.holds, hfollows.left,
    fun name hname => hfollows.frame name fun hmem => hname ((hnames name).mp hmem)⟩

/-- The resumed job starts with what its first exert has left, and its children are those of the
first exert. -/
theorem resumed_through (h : Resumption shell args dependencies effects first resumed clean)
    (hsteady : first.Steady shell args) :
    ∃ context children,
      (∀ path, context.entries.get? path =
        (first.returned shell args).core.context.entries.get? path) ∧
      List.Perm children resumed.job.children ∧
      (resumed.ready args).core.status.isResumable = true ∧
      resumed.Through shell args dependencies effects context children := by
  have hok := Exert.ok_of_done h.resumed_done
  obtain ⟨_, _, hfirst⟩ := h.first_through
  -- a failed job is taken as it is: its children keep what they have come to
  have hstatus : resumed.job.core.status = .failed := by
    rw [h.resumed_core, h.first_failed.2]
  have hstate : resumed.job.core.control.state ≠ .initial := by
    rw [h.resumed_core, hfirst.core, h.first_failed.2]
    simp [Core.setStatus]
  obtain ⟨hbody, hready, hdependers, hcontext⟩ :=
    Shell.prepare_resumed (Exert.prepare_of_ok hok) hstate
  have hchildren : (resumed.ready args).children = resumed.job.children := by
    rw [Work.children, hbody, Work.children]
  have hjob : (resumed.ready args).body = .job dependencies (resumed.ready args).children := by
    rw [hbody, hchildren, ← h.resumed_job]
  have hresumes : (resumed.ready args).core.status.isResumable = true := by
    rw [hready, hstatus]
    rfl
  obtain ⟨context, children, hthrough⟩ := Exert.through hok hjob h.resumed_here
    fun child hchild hruns => h.resumed_carries child (hchildren ▸ hchild) fun hdone =>
      hruns ⟨hresumes, hdone⟩
  have hrealized : (resumed.ready args).core.dependers = (first.ready args).core.dependers := by
    rw [hdependers, h.resumed_core, hfirst.core]
    rfl
  refine ⟨context, children, fun path => ?_, hchildren ▸ hthrough.arranged.perm, hresumes, hthrough⟩
  rw [hthrough.starts, Exert.start, hrealized, hcontext, h.resumed_core]
  exact hsteady path

/-- The resumed job ends with what all its children hold in the end. -/
theorem resumed_follows (h : Resumption shell args dependencies effects first resumed clean)
    (hkeeps : (Plan.ofClean shell args dependencies effects first clean).Keeps)
    (hsteady : first.Steady shell args) (htogether : first.FailsTogether shell args dependencies) :
    let plan := Plan.ofClean shell args dependencies effects first clean
    plan.Holds plan.final (resumed.returned shell args).core.context := by
  intro plan
  obtain ⟨hsettles, -⟩ := h.clean_follows hkeeps
  obtain ⟨held, hholds, hleft, hframe⟩ := h.first_follows hkeeps htogether
  obtain ⟨_, _, hfirst⟩ := h.first_through
  obtain ⟨context, children, hstart, hperm, hresumes, hthrough⟩ := h.resumed_through hsteady
  have hran := hthrough.ran
  rw [hresumes] at hran
  have hnone := hthrough.all_done h.resumed_done
  have hstartHolds : plan.Holds held context := fun path value => by
    rw [hstart path]
    exact hholds path value
  have hnames (name : String) : name ∈ children.map Work.name ↔
      name ∈ (first.ready args).children.map Work.name := by
    rw [(hperm.map Work.name).mem_iff, ← Work.SameData.names h.resumed_children, hfirst.mem_names]
  have hunknown (name : String) (hname : name ∉ (first.ready args).children.map Work.name) :
      held name = plan.final name := by
    rw [hframe name hname, h.final_unknown hname]
  have hwithin (name : String) : (held name).keys ⊆ plan.paths name := by
    by_cases hname : name ∈ (first.ready args).children.map Work.name
    · obtain ⟨child, hchild, rfl⟩ := List.mem_map.mp ((hfirst.mem_names name).mpr hname)
      exact (hleft child hchild).within
    · rw [hframe name hname]
      exact List.nil_subset _
  have hbrings : ∀ child ∈ children, plan.Brings held true child := by
    intro child hchild
    obtain ⟨unit, hunit, hsame⟩ := Work.SameData.exists_left h.resumed_children child
      (hperm.mem_iff.mp hchild)
    exact (hleft unit hunit).brings hsame
  obtain ⟨later, hfollows⟩ := Plan.follows h.separate hkeeps (fun _ => False) (by simp) hran
    (fun ended hended => by simpa using hnone ended hended)
    (.inl fun child hchild => hsettles _ ((hnames _).mp (List.mem_map_of_mem hchild)))
    ⟨hstartHolds, hwithin, by simp, hbrings, hthrough.arranged.nodup, hthrough.arranged.inOrder⟩
  exact hfollows.holds_final hran.names hnone fun name hname =>
    hunknown name fun hmem => hname ((hnames name).mpr hmem)

/-- Resuming a failed job gives what an exert without failures gives. -/
theorem resumed_entries_eq_clean
    (h : Resumption shell args dependencies effects first resumed clean)
    (hkeeps : (Plan.ofClean shell args dependencies effects first clean).Keeps)
    (hsteady : first.Steady shell args) (htogether : first.FailsTogether shell args dependencies)
    (path : String) :
    (resumed.returned shell args).core.context.entries.get? path =
      (clean.returned shell args).core.context.entries.get? path :=
  (h.resumed_follows hkeeps hsteady htogether).get?_eq (h.clean_follows hkeeps).2 path

end Resumption

structure Retry where
  dependers : List Depender
  owned : OrderedMap Value
  /-- Whether the sink takes a missing value for zero. -/
  lenient : Bool

namespace Retry

def dependencies : List Dependency := [⟨"sink", "source"⟩]

def effects : String → Effect
  | "source" => ⟨[], fun own _ => (own.erase "s").put "a" (.ofInt 2), by simp⟩
  | "sink" => ⟨["a"], fun own view => own.put "b" (.ofInt (((view "a").bind Value.asInt?).getD 0)),
      by simp +contextual⟩
  | _ => ⟨[], fun own _ => own.put "c" (.ofInt 1), by simp⟩

def operations (retry : Retry) (broken : Bool) : String → Operation
  | "source" => fun _ context =>
    if broken then (context, some (.exception "no supply"))
    else ((context.remove "s").put "a" (.ofInt 2), none)
  | "sink" => fun _ context =>
    if retry.lenient || (context.get? "a").isSome then
      (context.put "b" (.ofInt (context.int "a")), none)
    else (context, some (.exception "nothing to take"))
  | _ => fun _ context => (context.put "c" (.ofInt 1), none)

theorem describes (retry : Retry) (broken : Bool) (name : String) :
    (effects name).Describes (retry.operations broken name) := by
  intro selector context
  unfold effects operations
  split
  · cases broken <;> rfl
  · dsimp only
    split <;> rfl
  · rfl

def task (number : Nat) (name : String) (owned : OrderedMap Value) (operation : Operation) : Work :=
  (Work.ofSignature (.ofNat number) name (.object "run" name operation)).mapCore
    (·.mapContext ({ · with entries := owned }))

def job (retry : Retry) (broken : Bool) : Work :=
  ⟨{ Core.fresh (.ofNat 0) "order" with dependers := retry.dependers }, .job dependencies
    [task 1 "source" retry.owned (retry.operations broken "source"),
      task 2 "sink" .empty (retry.operations broken "sink"),
      task 3 "stock" .empty (retry.operations broken "stock")]⟩

def repaired (retry : Retry) (job : Work) : Work :=
  ⟨job.core, .job dependencies
    (job.children.map fun child => child.withTarget (retry.operations false child.name))⟩

def shell : Shell Unit := .finding none

def first (retry : Retry) : Exert Unit := ⟨retry.job true, none, ⟨(), .empty 20 1000⟩⟩

def resumed (retry : Retry) : Exert Unit :=
  ⟨retry.repaired (retry.first.returned shell []), none, ⟨(), .empty 20 1000⟩⟩

def clean (retry : Retry) : Exert Unit := ⟨retry.job false, none, ⟨(), .empty 20 1000⟩⟩

def isPlain (unit : Work) : Bool :=
  (match unit.body with
    | .task none [] => true
    | _ => false) && unit.core.dependers.isEmpty &&
    match unit.core.fidelities.selects with
    | [signature] => signature.isProcess
    | _ => false

def paths (work : Work) : List (String × List String) :=
  work.children.map fun child => (child.name, child.core.context.entries.keys)

theorem keys_entriesOf (work : Work) (name : String) :
    (work.entriesOf name).keys = (Pairs.get? (paths work) name).getD [] := by
  unfold Work.entriesOf Work.child? paths
  induction work.children with
  | nil => rfl
  | cons child rest ih =>
    by_cases hname : child.name = name
    · simp [Pairs.get?, hname]
    · simpa [Pairs.get?, hname] using ih

structure Observed (retry : Retry) : Prop where
  first_ok : (retry.first.outcome shell []).result.isOk
  first_failed : (retry.first.returned shell []).core.status = .failed
  first_plain : ∀ child ∈ (retry.first.returned shell []).children, isPlain child
  first_start : (retry.first.start []).keys ⊆ ["x"]
  owned : retry.owned.keys ⊆ ["s"]
  resumed_here : Shell.runsHere (retry.resumed.ready []).core
  resumed_done : (retry.resumed.returned shell []).core.status = .done
  clean_done : (retry.clean.returned shell []).core.status = .done
  clean_paths : paths (retry.clean.returned shell []) =
    [("source", ["a"]), ("sink", ["b"]), ("stock", ["c"])]

theorem job_carries (retry : Retry) (broken : Bool) :
    ∀ child ∈ (retry.job broken).children,
      shell.Carries ⟨0, none, none, []⟩ (effects child.name) child := by
  have hcarries (number : Nat) (name : String) (owned : OrderedMap Value) :
      shell.Carries ⟨0, none, none, []⟩ (effects name)
        (task number name owned (retry.operations broken name)) :=
    shell.carries_of_describes (Nat.zero_le _) (retry.describes broken name) rfl rfl rfl rfl rfl
  exact List.forall_mem_cons.mpr ⟨hcarries 1 "source" _, List.forall_mem_cons.mpr
    ⟨hcarries 2 "sink" _, List.forall_mem_singleton.mpr (hcarries 3 "stock" _)⟩⟩

theorem repaired_carries (retry : Retry) {unit : Work}
    (hplain : ∀ child ∈ unit.children, isPlain child) :
    ∀ child ∈ (retry.repaired unit).children,
      shell.Carries ⟨0, none, none, []⟩ (effects child.name) child := by
  intro child hchild
  obtain ⟨before, hbefore, rfl⟩ := List.mem_map.mp hchild
  obtain ⟨⟨hbody, hdependers⟩, hselects⟩ : ((match before.body with
      | .task none [] => true
      | _ => false) = true ∧ before.core.dependers = []) ∧
      (match before.core.fidelities.selects with
        | [signature] => signature.isProcess
        | _ => false) = true := by
    simpa [isPlain] using hplain before hbefore
  have htask : before.body = .task none [] := by
    split at hbody
    · assumption
    · cases hbody
  split at hselects
  · rename_i signature hsignature
    have hprocess : signature.role = .process := by simpa [Signature.isProcess] using hselects
    exact shell.carries_of_describes (Nat.zero_le _) (retry.describes false before.name) htask
      hdependers (Core.selects_withTarget _ hsignature) hprocess rfl
  · cases hselects

def owner : String → String
  | "b" => "sink"
  | "c" => "stock"
  | _ => "source"

theorem owner_of_mem {retry : Retry} (h : retry.Observed) {name path : String}
    (hpath : path ∈ (Plan.ofClean shell [] dependencies effects retry.first
      retry.clean).paths name) : path ≠ "x" ∧ owner path = name := by
  have hready : paths (retry.first.ready []) =
      [("source", retry.owned.keys), ("sink", []), ("stock", [])] := rfl
  have hkeys : path ∈ ((retry.first.ready []).entriesOf name).keys ∨
      path ∈ ((retry.clean.returned shell []).entriesOf name).keys := List.mem_append.mp hpath
  rw [keys_entriesOf, keys_entriesOf, hready, h.clean_paths] at hkeys
  by_cases hsource : "source" = name
  · obtain rfl := hsource
    have hsome : path ∈ retry.owned.keys ∨ path = "a" := by simpa [Pairs.get?] using hkeys
    cases hsome with
    | inl hown =>
      obtain rfl := List.mem_singleton.mp (h.owned hown)
      decide
    | inr ha => exact ha ▸ by decide
  · by_cases hsink : "sink" = name
    · obtain rfl := hsink
      have hb : path = "b" := by simpa [Pairs.get?] using hkeys
      exact hb ▸ by decide
    · by_cases hstock : "stock" = name
      · obtain rfl := hstock
        have hc : path = "c" := by simpa [Pairs.get?] using hkeys
        exact hc ▸ by decide
      · simp [Pairs.get?, hsource, hsink, hstock] at hkeys

theorem resumption {retry : Retry} (h : retry.Observed) :
    Resumption shell [] dependencies effects retry.first retry.resumed retry.clean where
  first_job := rfl
  first_here := rfl
  first_new := rfl
  first_failed := by
    refine ⟨?_, h.first_failed⟩
    have hok := h.first_ok
    cases hresult : (retry.first.outcome shell []).result with
    | ok => rfl
    | error => simp [hresult, Except.isOk, Except.toBool] at hok
  first_carries := retry.job_carries true
  resumed_core := rfl
  resumed_job := rfl
  resumed_children := List.forall₂_map_right_iff.mpr
    (List.forall₂_same.mpr fun child _ => ⟨rfl, rfl, rfl⟩)
  resumed_here := h.resumed_here
  resumed_done := h.resumed_done
  resumed_carries := fun child hchild _ => retry.repaired_carries h.first_plain child hchild
  clean_core := rfl
  clean_job := rfl
  clean_children := .cons ⟨rfl, rfl, rfl⟩ (.cons ⟨rfl, rfl, rfl⟩ (.cons ⟨rfl, rfl, rfl⟩ .nil))
  clean_done := h.clean_done
  clean_carries := retry.job_carries false
  reads := by
    have hsink : "a" ∈ ((retry.clean.returned shell []).entriesOf "source").keys := by
      rw [keys_entriesOf, h.clean_paths]
      decide
    have hreads (name : String) : (Plan.ofClean shell [] dependencies effects retry.first
        retry.clean).ReadsDeclared name := by
      intro path hpath
      have hpath : path ∈ (effects name).reads := hpath
      unfold effects at hpath
      split at hpath
      · cases hpath
      · obtain rfl := List.mem_singleton.mp hpath
        exact .inr (.inr ⟨⟨"sink", "source"⟩, List.mem_singleton.mpr rfl, rfl, hsink⟩)
      · cases hpath
    exact fun child _ => hreads child.name
  separate :=
    { initial := fun name path hpath hinitial =>
        (owner_of_mem h hpath).1 (List.mem_singleton.mp (h.first_start hinitial))
      children := fun name other path hpath hother =>
        (owner_of_mem h hpath).2.symm.trans (owner_of_mem h hother).2 }

theorem keeps {retry : Retry} (howned : retry.owned = .empty) :
    (Plan.ofClean shell [] dependencies effects retry.first retry.clean).Keeps := by
  intro name path hpath
  have hready : paths (retry.first.ready []) =
      [("source", retry.owned.keys), ("sink", []), ("stock", [])] := rfl
  have hown : path ∈ ((retry.first.ready []).entriesOf name).keys := hpath
  rw [keys_entriesOf, hready, howned] at hown
  have hempty : (OrderedMap.empty : OrderedMap Value).keys = [] := rfl
  simp only [Pairs.get?, hempty] at hown
  split_ifs at hown <;> simp at hown

theorem steady {retry : Retry} (hnone : retry.dependers = []) : retry.first.Steady shell [] := by
  intro path
  have hready : (retry.first.ready []).core.dependers = [] := hnone
  rw [hready]
  rfl

def DiffersAt (retry : Retry) (path : String) : Prop :=
  (retry.resumed.returned shell []).core.context.entries.get? path ≠
    (retry.clean.returned shell []).core.context.entries.get? path

theorem DiffersAt.of_int {retry : Retry} {path : String}
    (h : ((retry.resumed.returned shell []).core.context.entries.get? path).bind Value.asInt? ≠
      ((retry.clean.returned shell []).core.context.entries.get? path).bind Value.asInt?) :
    retry.DiffersAt path :=
  fun hsame => h (congrArg (·.bind Value.asInt?) hsame)

end Retry
open Retry

/-- The sink fails with the source and is run again behind it; the stock is left out. -/
theorem Resumption.resumed_entries_eq_clean_behind_failure :
    let retry : Retry := ⟨[], .empty, false⟩
    (retry.resumed.returned shell []).core.context.entries.get? "b" =
      (retry.clean.returned shell []).core.context.entries.get? "b" := by
  intro retry
  have hobserved : retry.Observed := by constructor <;> decide +kernel
  have htogether : retry.first.FailsTogether shell [] dependencies := by
    unfold Exert.FailsTogether
    decide +kernel
  exact (resumption hobserved).resumed_entries_eq_clean (keeps rfl) (steady rfl) htogether "b"

/-- A resumed job differs from one without failures where a child was done though its producer had
failed, where a child gives up a path that it owns, and where a depender counts the exerts. -/
theorem Resumption.resumed_entries_ne_clean :
    let forgiving : Retry := ⟨[], .empty, true⟩
    let yielding : Retry := ⟨[], OrderedMap.empty.put "s" (.ofInt 1), false⟩
    let counting : Retry := ⟨[⟨"count", fun context _ =>
      (context.put "x" (.ofInt (context.int "x" + 1)), none)⟩], .empty, false⟩
    let related (retry : Retry) : Prop :=
      Resumption shell [] dependencies effects retry.first retry.resumed retry.clean
    let keeping (retry : Retry) : Prop :=
      (Plan.ofClean shell [] dependencies effects retry.first retry.clean).Keeps
    let together (retry : Retry) : Prop := retry.first.FailsTogether shell [] dependencies
    (related forgiving ∧ keeping forgiving ∧ forgiving.first.Steady shell [] ∧
        forgiving.DiffersAt "b") ∧
      (related yielding ∧ yielding.first.Steady shell [] ∧ together yielding ∧
        yielding.DiffersAt "s") ∧
      (related counting ∧ keeping counting ∧ together counting ∧ counting.DiffersAt "x") := by
  intro forgiving yielding counting related keeping together
  have hforgiving : forgiving.Observed := by constructor <;> decide +kernel
  have hyielding : yielding.Observed := by constructor <;> decide +kernel
  have hcounting : counting.Observed := by constructor <;> decide +kernel
  have hyieldingTogether : together yielding := by
    unfold together Exert.FailsTogether
    decide +kernel
  have hcountingTogether : together counting := by
    unfold together Exert.FailsTogether
    decide +kernel
  refine ⟨⟨resumption hforgiving, keeps rfl, steady rfl, ?_⟩,
    ⟨resumption hyielding, steady rfl, hyieldingTogether, ?_⟩,
    ⟨resumption hcounting, keeps rfl, hcountingTogether, ?_⟩⟩
  · exact .of_int (by decide +kernel)
  · exact .of_int (by decide +kernel)
  · exact .of_int (by decide +kernel)

end ServiceShell
