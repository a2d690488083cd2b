import ServiceShell.Proofs.Restated
import ServiceShell.Proofs.Return
/-!
A dispatch of a unit whose process signature has been corrected before. The correction is stored in
the unit, and so it may send the unit another way than it would go by itself; where it does not, the
dispatch comes to the same.
-/
namespace ServiceShell
variable {σ α β γ δ : Type}

namespace Fidelities

theorem length_selects_setProcessSignature {fidelities : Fidelities} (signature : Signature)
    (hlength : fidelities.selects.length ≤ 1)
    (hprocess : ∀ other ∈ fidelities.selects, other.isProcess) :
    (fidelities.setProcessSignature signature).selects.length ≤ 1 := by
  rw [selects_setProcessSignature]
  generalize fidelities.selects = selects at hlength hprocess
  rcases selects with _ | ⟨first, _ | ⟨second, rest⟩⟩
  · exact Nat.le_refl 1
  · have hfirst := hprocess first (List.mem_singleton_self first)
    simp [replaceFirst, List.findIdx?_cons, hfirst]
  · simp at hlength

/-- A selection by this name, if there is one, leaves the active fidelity active. An unknown name is
refused whatever the signatures are; but where there is no fidelity at all, a process signature
makes the one without a name. -/
def Keeps (fidelities : Fidelities) (name? : Option String) : Prop :=
  ∀ name, name? = some name → (fidelities.active = none → name ≠ "") ∧
    ∀ chosen, fidelities.select name = .ok chosen → chosen.activeIndex = fidelities.activeIndex

theorem findIdx?_setProcessSignature {fidelities : Fidelities} (h : fidelities.active ≠ none)
    (signature : Signature) (name : String) :
    (fidelities.setProcessSignature signature).alternatives.findIdx? (·.name = name) =
      fidelities.alternatives.findIdx? (·.name = name) := by
  obtain ⟨fidelity, hactive⟩ := Option.ne_none_iff_exists'.mp h
  obtain ⟨hlt, hget⟩ := List.getElem?_eq_some_iff.mp hactive
  have hnames (list : List Fidelity) : list.findIdx? (·.name = name) =
      (list.map Fidelity.name).findIdx? (· = name) := by
    rw [List.findIdx?_map]
    rfl
  have hbound : fidelities.activeIndex < (fidelities.alternatives.map Fidelity.name).length := by
    rwa [List.length_map]
  have hsame : (fidelities.alternatives.map Fidelity.name)[fidelities.activeIndex] =
      fidelity.name := by
    rw [List.getElem_map, hget]
  rw [setProcessSignature_of_some hactive, hnames, hnames, List.map_set]
  refine congrArg (List.findIdx? _) ?_
  change List.set _ _ fidelity.name = _
  rw [← hsame, List.set_getElem_self]

theorem active_of_select {fidelities chosen : Fidelities} {name : String}
    (h : fidelities.select name = .ok chosen)
    (hindex : chosen.activeIndex = fidelities.activeIndex) :
    chosen.active = fidelities.active := by
  unfold active
  rw [hindex]
  unfold select at h
  split at h
  · obtain rfl := Except.ok.inj h
    rfl
  · cases h

theorem select_setProcessSignature {fidelities : Fidelities} {name : String}
    (h : fidelities.Keeps (some name)) (signature : Signature) :
    (fidelities.setProcessSignature signature).select name =
      (fidelities.select name).map (·.setProcessSignature signature) := by
  obtain ⟨hunnamed, hkeeps⟩ := h name rfl
  by_cases hnone : fidelities.active = none
  · have hname : name ≠ "" := hunnamed hnone
    rw [setProcessSignature_of_none hnone, select, select, alternatives_eq_nil hnone]
    simp [List.findIdx?_cons, hname.symm, Except.map]
  obtain ⟨fidelity, hactive⟩ := Option.ne_none_iff_exists'.mp hnone
  have hfind := findIdx?_setProcessSignature hnone signature name
  have hset := setProcessSignature_of_some hactive signature
  cases hselect : fidelities.select name with
  | error e =>
    unfold select at hselect ⊢
    rw [hfind]
    split at hselect
    · cases hselect
    · exact hselect
  | ok chosen =>
    have hchosen := hkeeps chosen hselect
    have hagain := setProcessSignature_of_some
      ((active_of_select hselect hchosen).trans hactive) signature
    unfold select at hselect ⊢
    rw [hfind]
    split at hselect
    · obtain rfl := Except.ok.inj hselect
      refine congrArg Except.ok ?_
      dsimp only
      rw [hset, hagain, hchosen]
    · cases hselect

end Fidelities

namespace Work

structure AsksLike (work other : Work) : Prop where
  signature : other.core.processSignature = work.core.processSignature
  access : other.core.control.access = work.core.control.access
  kind : other.kind = work.kind

namespace AsksLike
variable {work other : Work} (h : work.AsksLike other)
include h

theorem requestedSignature : other.requestedSignature = work.requestedSignature := by
  rw [Work.requestedSignature, h.signature]
  rfl

theorem keepsSignature : other.keepsSignature = work.keepsSignature := by
  rw [Work.keepsSignature, isJob, h.kind, h.requestedSignature]
  rfl

theorem effectiveAccess : other.effectiveAccess = work.effectiveAccess := by
  rw [Work.effectiveAccess, h.requestedSignature, h.access]
  rfl

theorem correctedSignature (queueName : String) :
    other.correctedSignature queueName = work.correctedSignature queueName := by
  rw [Work.correctedSignature, h.keepsSignature, h.requestedSignature, h.effectiveAccess]
  rfl

theorem correct (queueName : String) : other.correct queueName =
    other.mapCore (Core.restate (work.correct queueName).core.control.access
      (other.core.fidelities.setProcessSignature (work.correctedSignature queueName))) := by
  rw [other.correct_eq queueName, h.correctedSignature, correct_access, correct_access,
    h.keepsSignature, h.access, h.effectiveAccess]

end AsksLike

end Work

/-- The same unit, but for its access and its fidelities. -/
def Work.Restated (work other : Work) : Prop :=
  ∃ access fidelities, other = work.mapCore (Core.restate access fidelities)

structure Attempt.Restated (attempt other : Attempt) : Prop where
  work : attempt.work.Restated other.work
  result : other.result = attempt.result

structure Dispatched.Restated (ended other : Dispatched) : Prop where
  work : ended.work.Restated other.work
  result : other.result = ended.result

/-- What an event tells, the access and the fidelities of a unit that is announced and the signature
in a report aside. The lines that a correction logs tell nothing. -/
def Event.told? : Event → Option Event
  | note (.signatureBefore _) | note (.signatureAfter _) => none
  | dispatched depth unit => some (dispatched depth (unit.mapCore (Core.restate .push .empty)))
  | recorded entry => some (recorded { entry with signature := none })
  | event => some event

structure Outcome.Agrees (values : α → β → Prop) (outcome : Outcome σ α) (other : Outcome σ β) :
    Prop where
  value : values outcome.value other.value
  world : other.world = outcome.world
  events : other.events.filterMap Event.told? = outcome.events.filterMap Event.told?

def Run.Agrees (values : α → β → Prop) (x : Run σ α) (y : Run σ β) : Prop :=
  ∀ world, Outcome.Agrees values (x world) (y world)

namespace Run.Agrees
variable {values : α → β → Prop} {others : γ → δ → Prop} {x : Run σ α} {y : Run σ β}

theorem pure {value : α} {other : β} (h : values value other) :
    Run.Agrees values (Pure.pure value : Run σ α) (Pure.pure other) :=
  fun _ => ⟨h, rfl, rfl⟩

theorem bind {f : α → Run σ γ} {g : β → Run σ δ} (h : Run.Agrees values x y)
    (hf : ∀ value other, values value other → Run.Agrees others (f value) (g other)) :
    Run.Agrees others (x >>= f) (y >>= g) := by
  intro world
  obtain ⟨hvalue, hworld, hevents⟩ := h world
  have hlater := hf _ _ hvalue (x world).world
  rw [← hworld] at hlater
  refine ⟨?_, ?_, ?_⟩
  · rw [bind_apply, bind_apply, ← hworld]
    exact hlater.value
  · rw [bind_apply, bind_apply, ← hworld]
    exact hlater.world
  · rw [bind_apply, bind_apply, ← hworld, List.filterMap_append, List.filterMap_append, hevents,
      hlater.events]

theorem refl (x : Run σ α) : Run.Agrees Eq x x := fun _ => ⟨rfl, rfl, rfl⟩

theorem symm {x y : Run σ α} (h : Run.Agrees Eq x y) : Run.Agrees Eq y x :=
  fun world => ⟨(h world).value.symm, (h world).world.symm, (h world).events.symm⟩

theorem emit {event other : Event} (h : other.told? = event.told?) :
    Run.Agrees Eq (Run.emit event : Run σ Unit) (Run.emit other) :=
  fun _ => ⟨rfl, rfl, by simp [List.filterMap_cons, h]⟩

theorem after {x y : Run σ α} {f : α → Run σ γ} {g : α → Run σ δ} (h : Run.Agrees Eq x y)
    (hf : ∀ value, Run.Agrees others (f value) (g value)) :
    Run.Agrees others (x >>= f) (y >>= g) :=
  h.bind fun value _ heq => heq ▸ hf value

theorem trans_eq {x : Run σ α} {y last : Run σ β} (h : Run.Agrees values x y)
    (hlast : Run.Agrees Eq y last) : Run.Agrees values x last :=
  fun world => ⟨(hlast world).value ▸ (h world).value, (hlast world).world.trans (h world).world,
    (hlast world).events.trans (h world).events⟩

theorem mapped {x y : Run σ α} {change : α → α} {f g : α → Run σ γ} {others : γ → γ → Prop}
    (h : y = change <$> x) (hf : ∀ value, Run.Agrees others (f value) (g (change value))) :
    Run.Agrees others (x >>= f) (y >>= g) := by
  rw [h, bind_map_left]
  exact (refl x).after hf

theorem mono {weaker : α → β → Prop} (h : Run.Agrees values x y)
    (hw : ∀ value other, values value other → weaker value other) : Run.Agrees weaker x y :=
  fun world => ⟨hw _ _ (h world).value, (h world).world, (h world).events⟩

end Run.Agrees

namespace Work

theorem Restated.refl (work : Work) : work.Restated work :=
  ⟨_, _, work.mapCore_restate_self.symm⟩

theorem restated_correct (work : Work) (queueName : String) :
    work.Restated (work.correct queueName) :=
  ⟨_, _, work.correct_eq queueName⟩

theorem Restated.congr {work other : Work} (h : work.Restated other) (f : Work → α)
    (hf : ∀ access fidelities, f (work.mapCore (Core.restate access fidelities)) = f work) :
    f other = f work := by
  obtain ⟨access, fidelities, rfl⟩ := h
  exact hf access fidelities

theorem Restated.fail {work other : Work} (h : work.Restated other) (fault : Fault) :
    (work.mapCore (·.fail fault)).Restated (other.mapCore (·.fail fault)) := by
  obtain ⟨access, fidelities, rfl⟩ := h
  exact ⟨access, fidelities, rfl⟩

end Work

/-- The unit goes the same way with its corrected signature as without. So does every unit whose
signature is right already, whatever is declared about its access. A model and a task with an errand
ask for no signature; a composite with a signature is executed where it was; and a task with one
signature at most computes its model, or is sent. -/
def Work.KeepsWay (queueName : String) (work : Work) : Prop :=
  work.core.processSignature = some (work.correctedSignature queueName) ∨
    match work.body with
    | .model _ => True
    | .job .. | .block .. => work.core.processSignature ≠ none
    | .task model errands => errands ≠ [] ∨ Shell.Single work.core ∧
        (∀ signature ∈ work.core.fidelities.selects, signature.isProcess) ∧
        (model ≠ none ∨ work.Travels)

/-- A dispatch with these arguments does not depend on a correction made before: there is nothing to
be corrected, or the unit keeps its way and the fidelity that was corrected. -/
inductive Work.Unaffected (queueName : String) (args : List Argument) (work : Work) : Prop
  | right : work.correct queueName = work → Unaffected queueName args work
  | onItsWay : work.KeepsWay queueName → work.core.fidelities.Keeps (Argument.fidelity? args) →
    Unaffected queueName args work

namespace Shell
variable (shell : Shell σ)

/-- Of a correction nothing is told. -/
theorem correctSignature_agrees (work : Work) :
    Run.Agrees Eq (shell.correctSignature work) (pure
      (work.correctedSignature shell.config.queueName, work.correct shell.config.queueName)) := by
  intro world
  unfold correctSignature
  dsimp only
  split <;> exact ⟨rfl, rfl, rfl⟩

theorem correctSignature_correct (work : Work) :
    shell.correctSignature (work.correct shell.config.queueName) = pure
      (work.correctedSignature shell.config.queueName, work.correct shell.config.queueName) := by
  unfold correctSignature
  rw [Work.requestedSignature_correct, Work.correctedSignature_correct, Work.correct_correct]
  exact if_neg fun hne => hne rfl

/-- A unit that was corrected before is sent as it would have been. -/
theorem send_agrees (call : Call) (work : Work) : Run.Agrees Eq (shell.send call work)
    (shell.send call (work.correct shell.config.queueName)) := by
  unfold send
  rw [correctSignature_correct]
  exact (shell.correctSignature_agrees work).after fun _ => .refl _

theorem persist_agrees {work other : Work} (h : work.Restated other) :
    persist (σ := σ) other = persist work := by
  obtain ⟨access, fidelities, rfl⟩ := h
  obtain ⟨core, body⟩ := work
  unfold persist
  simp only [Work.units, Work.mapCore, List.flatMap_append, List.flatMap_singleton]
  rfl

theorem record_agrees {work other : Work} (h : work.Restated other) (route : Route) :
    Run.Agrees Eq (shell.record work route) (shell.record other route) := by
  obtain ⟨access, fidelities, rfl⟩ := h
  exact fun _ => ⟨rfl, rfl, rfl⟩

theorem supervise_agrees (call : Call) {work other : Work} (hwork : work.Restated other)
    {execute executeOther : Work → Run σ Attempt}
    (hexecute : Run.Agrees Attempt.Restated (execute work) (executeOther other)) :
    Run.Agrees Dispatched.Restated (shell.supervise call work execute)
      (shell.supervise call other executeOther) := by
  have hannounced : (Event.dispatched call.depth other).told? =
      (Event.dispatched call.depth work).told? :=
    hwork.congr (Event.told? ∘ .dispatched call.depth) fun _ _ => rfl
  unfold supervise
  rw [hwork.congr Work.name fun _ _ => rfl, hwork.congr Work.kind fun _ _ => rfl]
  split
  · exact (Run.Agrees.refl _).after fun _ => .pure ⟨hwork.fail _, rfl⟩
  · refine (Run.Agrees.emit hannounced).after fun _ => (Run.Agrees.refl _).after fun _ =>
      hexecute.bind fun attempt last hattempt => ?_
    obtain ⟨⟨unit, result⟩, ⟨unitOther, resultOther⟩⟩ := attempt, last
    obtain ⟨hunit, hresult⟩ := hattempt
    obtain rfl : resultOther = result := hresult
    cases resultOther with
    | ok route =>
      dsimp only at hunit ⊢
      rw [hunit.congr (·.core.hasFailed) fun _ _ => rfl, persist_agrees hunit]
      split
      · exact (Run.Agrees.refl _).after fun _ => (shell.record_agrees hunit route).after fun _ =>
          .pure ⟨hunit, rfl⟩
      · exact (shell.record_agrees hunit route).after fun _ => .pure ⟨hunit, rfl⟩
    | error e =>
      have hfailed := hunit.fail e.asRoutine.toFault
      dsimp only at hunit ⊢
      rw [hunit.congr Work.name fun _ _ => rfl]
      exact (Run.Agrees.refl _).after fun _ => (shell.record_agrees hfailed .aborted).after fun _ =>
        .pure ⟨hfailed, rfl⟩

/-- Dependers do not look at what a correction changes. -/
theorem proceed_agrees (call : Call) (work : Work) {access : Access} {fidelities : Fidelities}
    {route : Core → Bool → Run σ Attempt}
    (hroute : ∀ context resuming,
      let running := Core.setStatus { work.core with context } .running
      Run.Agrees Attempt.Restated (route running resuming)
        (route (running.restate access fidelities) resuming)) :
    Run.Agrees Attempt.Restated (proceed call work route)
      (proceed call (work.mapCore (Core.restate access fidelities)) route) := by
  have hrealized : Run.Agrees
      (fun left right => right = Prod.map (Core.restate access fidelities) id left ∧
        ∃ context, left.1 = { work.core with context })
      (realize (σ := σ) call.args work.core.dependers work.core)
      (realize call.args work.core.dependers (work.core.restate access fidelities)) := by
    intro world
    have hvalue := (realize_apply call.args work.core.dependers work.core world).1
    rw [realize_restate, Run.map_apply]
    exact ⟨⟨rfl, _, congrArg Prod.fst hvalue⟩, rfl, rfl⟩
  unfold proceed
  refine hrealized.bind fun left right hended => ?_
  obtain ⟨realized, result⟩ := left
  obtain ⟨rfl, context, rfl⟩ := hended
  cases result with
  | error e => exact .pure ⟨⟨access, fidelities, rfl⟩, rfl⟩
  | ok =>
    refine (hroute context _).bind fun attempt last hattempt => ?_
    obtain ⟨⟨unit, result⟩, ⟨unitOther, resultOther⟩⟩ := attempt, last
    obtain ⟨⟨access, fidelities, hunit⟩, hresult⟩ := hattempt
    obtain rfl : resultOther = result := hresult
    obtain rfl : unitOther = _ := hunit
    cases resultOther with
    | ok route => exact .pure ⟨⟨access, fidelities, rfl⟩, rfl⟩
    | error e => exact .pure ⟨⟨access, fidelities, rfl⟩, rfl⟩

theorem restated_of_eq (attempt last : Attempt) (h : attempt = last) : attempt.Restated last :=
  h ▸ ⟨.refl _, rfl⟩

section Ways
variable {shell : Shell σ} {call : Call} {work : Work}

/-- A composite with a signature is executed in this process or sent, as before. -/
theorem runsHere_correct (work : Work) (h : work.core.processSignature ≠ none)
    (queueName : String) : runsHere (work.correct queueName).core = runsHere work.core := by
  obtain ⟨signature, hsignature⟩ := Option.ne_none_iff_exists'.mp h
  have htarget := work.correctedSignature_target queueName
  rw [Work.requestedSignature, hsignature, Option.getD_some] at htarget
  unfold runsHere
  rw [Work.processSignature_correct, hsignature]
  exact congrArg Option.isSome htarget

theorem givenOver_restated (core : Core) (standIn : Work) (body : Body Work) (ended : Dispatched)
    (access : Access) (fidelities : Fidelities) :
    Attempt.Restated (givenOver (served core standIn) body ended)
      (givenOver (served (core.restate access fidelities) standIn) body ended) := by
  obtain ⟨work, result⟩ := ended
  rw [served_restate]
  cases result with
  | error e => exact ⟨⟨access, fidelities, rfl⟩, rfl⟩
  | ok =>
    refine ⟨⟨access, fidelities, ?_⟩, rfl⟩
    exact congrArg (Work.mk · body) (takeBack_restate _ _)

/-- What a correction leaves of a task that keeps its way: a flow is as it was, and what is none
becomes none. -/
theorem single_correct_iff {core : Core} {model : Option (List Procedure)}
    (h : Work.KeepsWay shell.config.queueName ⟨core, .task model []⟩) :
    Single (Work.correct ⟨core, .task model []⟩ shell.config.queueName).core ↔ Single core := by
  obtain ⟨access, hcore⟩ := Work.correct_core ⟨core, .task model []⟩ shell.config.queueName
  rw [hcore]
  obtain hright | hnone | ⟨hsingle, hprocess, -⟩ := h
  · have hself : core.fidelities.setProcessSignature _ = core.fidelities :=
      Fidelities.setProcessSignature_self hright
    rw [hself]
    exact Iff.rfl
  · exact absurd rfl hnone
  · exact iff_of_true (Fidelities.length_selects_setProcessSignature _ hsingle hprocess) hsingle

/-- The code of a unit is that of the unit with its corrected signature, with the restated unit. -/
theorem OwnCode.correct {core : Core} {body : Body Work} {code : Run σ Core} {route : Route}
    (h : OwnCode core body code route)
    (hkeeps : Work.KeepsWay shell.config.queueName ⟨core, body⟩) :
    ∃ access fidelities, OwnCode (Work.correct ⟨core, body⟩ shell.config.queueName).core body
      (Core.restate access fidelities <$> code) route := by
  obtain ⟨access, hcore⟩ := Work.correct_core ⟨core, body⟩ shell.config.queueName
  refine ⟨access, core.fidelities.setProcessSignature
    (Work.correctedSignature ⟨core, body⟩ shell.config.queueName), ?_⟩
  cases h with
  | model =>
    rw [← compute_restate, ← hcore]
    exact .model
  | taskModel hsingle =>
    rw [← compute_restate, ← hcore]
    exact .taskModel ((single_correct_iff hkeeps).mpr hsingle)
  | operation hsingle hsignature htarget =>
    have hright := hkeeps.resolve_right (by
      rintro (hnone | ⟨-, -, hmodel | htravels⟩)
      · exact absurd rfl hnone
      · exact absurd rfl hmodel
      · rw [htravels _ hsignature] at htarget
        cases htarget)
    have hcorrected := Work.processSignature_correct ⟨core, .task none []⟩ shell.config.queueName
    rw [← hright, hsignature] at hcorrected
    rw [← operate_restate, ← hcore]
    exact .operation ((single_correct_iff hkeeps).mpr hsingle) hcorrected htarget

/-- A unit departs with its corrected signature if it did with its own. -/
theorem Departs.correct {core : Core} {body sent : Body Work} (h : Departs core body sent)
    (hkeeps : Work.KeepsWay shell.config.queueName ⟨core, body⟩) :
    Departs (Work.correct ⟨core, body⟩ shell.config.queueName).core body sent := by
  have hcorrected := Work.processSignature_correct ⟨core, body⟩ shell.config.queueName
  have hhere (hasks : core.processSignature ≠ none) (hgoes : runsHere core = false) :
      runsHere (Work.correct ⟨core, body⟩ shell.config.queueName).core = false :=
    (runsHere_correct ⟨core, body⟩ hasks shell.config.queueName).trans hgoes
  cases h with
  | task hsingle htravels =>
    refine .task ((single_correct_iff hkeeps).mpr hsingle) fun signature hsignature => ?_
    obtain rfl := Option.some.inj (hcorrected.symm.trans hsignature)
    exact Work.Travels.corrected htravels shell.config.queueName
  | job horder hgoes =>
    refine .job horder (hhere ?_ hgoes)
    exact hkeeps.elim (fun hright => by simp [hright]) id
  | block hgoes =>
    refine .block (hhere ?_ hgoes)
    exact hkeeps.elim (fun hright => by simp [hright]) id

/-- Whatever goes the same way with its corrected signature comes to the same. -/
theorem execute_agrees (call : Call) {core : Core} {body : Body Work} (resuming : Bool)
    (h : Work.KeepsWay shell.config.queueName ⟨core, body⟩) :
    Run.Agrees Attempt.Restated (shell.execute call core resuming body)
      (shell.execute call (Work.correct ⟨core, body⟩ shell.config.queueName).core resuming
        body) := by
  have hway := shell.execute_way call core resuming body
  generalize shell.execute call core resuming body = x at hway
  obtain ⟨access, hcore⟩ := Work.correct_core ⟨core, body⟩ shell.config.queueName
  have hhere (hsome : core.processSignature ≠ none) :=
    runsHere_correct ⟨core, body⟩ hsome shell.config.queueName
  cases hway with
  | own hown =>
    obtain ⟨access, fidelities, hother⟩ := hown.correct h
    rw [Way.execute_eq (.own hother)]
    exact .mapped rfl fun _ => .pure ⟨⟨access, fidelities, rfl⟩, rfl⟩
  | flow hflow =>
    have hright := h.resolve_right (by
      rintro (hnone | ⟨hsingle, -⟩)
      · exact absurd rfl hnone
      · exact hflow hsingle)
    rw [Way.execute_eq (.flow ((single_correct_iff h).not.mpr hflow)), hcore,
      Fidelities.setProcessSignature_self hright]
    exact .mapped (runFlow_restate shell call rfl) fun _ => .pure ⟨⟨_, _, rfl⟩, rfl⟩
  | @sent body sent hdeparts =>
    -- a job is sent with its children arranged
    have hasks : Work.AsksLike ⟨core, body⟩ ⟨core, sent⟩ := ⟨rfl, rfl, hdeparts.kind core⟩
    have hsame : Work.correct ⟨core, sent⟩ shell.config.queueName =
        ⟨(Work.correct ⟨core, body⟩ shell.config.queueName).core, sent⟩ := by
      rw [hasks.correct, Work.correct_eq ⟨core, body⟩]
      rfl
    rw [Way.execute_eq (.sent (hdeparts.correct h)), ← hsame]
    exact (shell.send_agrees call ⟨core, sent⟩).mono restated_of_eq
  | errand =>
    rw [Way.execute_eq .errand, hcore, ← bind_pure_comp, ← bind_pure_comp]
    exact (Run.Agrees.refl _).after fun ended => .pure (givenOver_restated core _ _ ended _ _)
  | unordered horder =>
    rw [Way.execute_eq (.unordered horder), hcore]
    exact (Run.Agrees.refl _).after fun _ => .pure ⟨⟨_, _, rfl⟩, rfl⟩
  | job horder hjob =>
    have hsome : core.processSignature ≠ none := h.elim (fun hright => by simp [hright]) id
    rw [Way.execute_eq (.job horder ((hhere hsome).trans hjob)), hcore]
    exact .mapped (runJob_restate _ _ _) fun _ => .pure ⟨⟨_, _, rfl⟩, rfl⟩
  | block hblock =>
    have hsome : core.processSignature ≠ none := h.elim (fun hright => by simp [hright]) id
    rw [Way.execute_eq (.block ((hhere hsome).trans hblock)), hcore]
    exact .mapped (runBlock_restate _ _ _) fun _ => .pure ⟨⟨_, _, rfl⟩, rfl⟩

end Ways
section Preparation
variable {args : List Argument} {work ready : Work} (queueName : String)

theorem selectFidelity_correct (h : work.core.fidelities.Keeps (Argument.fidelity? args)) :
    selectFidelity args (work.correct queueName) = (selectFidelity args work).map
      (·.setProcessSignature (work.correctedSignature queueName)) := by
  unfold selectFidelity
  rw [Work.correct_fidelities]
  cases hname : Argument.fidelity? args with
  | none => rfl
  | some name =>
    rw [hname] at h
    exact Fidelities.select_setProcessSignature h _

theorem selectFidelity_active {chosen : Fidelities}
    (h : work.core.fidelities.Keeps (Argument.fidelity? args))
    (hselect : selectFidelity args work = .ok chosen) :
    chosen.active = work.core.fidelities.active := by
  unfold selectFidelity at hselect
  split at hselect
  · rename_i name hname
    exact Fidelities.active_of_select hselect ((h name hname).2 chosen hselect)
  · obtain rfl := Except.ok.inj hselect
    rfl

theorem readied_asksLike {chosen : Fidelities}
    (h : work.core.fidelities.Keeps (Argument.fidelity? args))
    (hselect : selectFidelity args work = .ok chosen) :
    work.AsksLike (readied args work chosen) where
  signature := by
    rw [Core.processSignature, readied_fidelities, Fidelities.processSignature,
      selectFidelity_active h hselect]
    rfl
  access := readied_access args work chosen
  kind := readied_kind args work chosen

/-- Preparation takes no unit off its way. -/
theorem readied_keepsWay {chosen : Fidelities}
    (hfidelity : work.core.fidelities.Keeps (Argument.fidelity? args))
    (hselect : selectFidelity args work = .ok chosen) (h : work.KeepsWay queueName) :
    (readied args work chosen).KeepsWay queueName := by
  have hasks := readied_asksLike hfidelity hselect
  have hselects : (readied args work chosen).core.fidelities.selects =
      work.core.fidelities.selects := by
    rw [readied_fidelities, Fidelities.selects,
      selectFidelity_active hfidelity hselect]
    rfl
  have hbody := readied_body args work chosen
  have hsignature := hasks.signature
  unfold Work.KeepsWay at h ⊢
  rw [hsignature, hasks.correctedSignature]
  generalize readied args work chosen = ready at *
  refine h.imp_right fun h => ?_
  obtain ⟨core, body⟩ := work
  cases body with
  | model procedures =>
    have hbody : ready.body = .model procedures := hbody.elim id id
    rw [hbody]
    trivial
  | task model errands =>
    have hbody : ready.body = .task model errands := hbody.elim id id
    have htravels : Work.Travels ⟨core, .task model errands⟩ → ready.Travels := by
      unfold Work.Travels
      rw [hsignature]
      exact id
    rw [hbody]
    dsimp only at h ⊢
    rw [Single, hselects]
    exact h.imp_right (And.imp_right (And.imp_right (Or.imp_right htravels)))
  | job dependencies children =>
    obtain ⟨children, hbody⟩ : ∃ children, ready.body = .job dependencies children :=
      hbody.elim (fun hbody => ⟨_, hbody⟩) fun hbody => ⟨_, hbody⟩
    rw [hbody]
    exact h
  | block declared children =>
    obtain ⟨children, hbody⟩ : ∃ children, ready.body = .block declared children :=
      hbody.elim (fun hbody => ⟨_, hbody⟩) fun hbody => ⟨_, hbody⟩
    rw [hbody]
    exact h

/-- It makes no difference whether a unit is corrected before it is prepared or after. -/
theorem prepare_correct (h : work.core.fidelities.Keeps (Argument.fidelity? args)) :
    prepare args (work.correct queueName) = (prepare args work).map (·.correct queueName) := by
  rw [prepare_eq, prepare_eq, selectFidelity_correct queueName h]
  cases hselect : selectFidelity args work with
  | error e => rfl
  | ok chosen =>
    refine congrArg Except.ok ?_
    dsimp only
    rw [(readied_asksLike h hselect).correct, readied_fidelities,
      work.correct_eq queueName]
    exact readied_restate ..

end Preparation
section Submission
variable {shell : Shell σ} {work : Work}

theorem executePrepared_agrees {call : Call} (h : work.KeepsWay shell.config.queueName)
    (hfidelity : work.core.fidelities.Keeps (Argument.fidelity? call.args)) :
    Run.Agrees Attempt.Restated (shell.executePrepared call work)
      (shell.executePrepared call (work.correct shell.config.queueName)) := by
  unfold executePrepared
  rw [prepare_correct shell.config.queueName hfidelity, prepare_eq]
  cases hselect : selectFidelity call.args work with
  | error e => exact .pure ⟨work.restated_correct _, rfl⟩
  | ok chosen =>
    have hready := readied_keepsWay shell.config.queueName hfidelity hselect h
    dsimp only [Except.map]
    generalize readied call.args work chosen = ready at hready ⊢
    rw [ready.correct_eq shell.config.queueName]
    refine proceed_agrees call ready fun context resuming => ?_
    -- what runs asks for the correction that the prepared unit asks for
    let running := Core.setStatus { ready.core with context } .running
    have hasks : ready.AsksLike ⟨running, ready.body⟩ := ⟨rfl, rfl, rfl⟩
    have hcore := congrArg Work.core (hasks.correct shell.config.queueName)
    have hway : Work.KeepsWay shell.config.queueName ⟨running, ready.body⟩ := by
      unfold Work.KeepsWay at hready ⊢
      rw [hasks.correctedSignature]
      exact hready
    have hexecute := execute_agrees call resuming hway
    rw [hcore] at hexecute
    exact hexecute

theorem dispatch_agrees (call : Call)
    (h : work.Unaffected shell.config.queueName call.args) :
    Run.Agrees Dispatched.Restated (shell.dispatch call work)
      (shell.dispatch call (work.correct shell.config.queueName)) := by
  cases h with
  | right hsame =>
    rw [hsame]
    exact (Run.Agrees.refl _).mono fun _ _ heq => heq ▸ ⟨.refl _, rfl⟩
  | onItsWay hway hfidelity =>
    have hended := shell.supervise_agrees call (work.restated_correct shell.config.queueName)
      (executePrepared_agrees hway hfidelity)
    exact hended.bind fun ended last hended => (Run.Agrees.refl _).after fun _ => .pure hended

end Submission

theorem settle_agrees {ended last : Dispatched} (h : ended.Restated last) :
    Run.Agrees Work.Restated (settle (σ := σ) ended) (settle last) := by
  obtain ⟨⟨unit, result⟩, ⟨unitLast, resultLast⟩⟩ := ended, last
  obtain ⟨hunit, hresult⟩ := h
  obtain rfl : resultLast = result := hresult
  dsimp only at hunit
  unfold settle
  dsimp only
  rw [hunit.congr Work.name fun _ _ => rfl]
  cases resultLast with
  | ok => exact .pure hunit
  | error e => exact (Run.Agrees.refl _).after fun _ => .pure hunit

def afterCorrection (work : Work) (handIn : Work → Run σ α) : Run σ α := do
  let (_, corrected) ← shell.correctSignature work
  handIn corrected

theorem afterCorrection_agrees {values : α → α → Prop} {work : Work} (handIn : Work → Run σ α)
    (h : Run.Agrees values (handIn work) (handIn (work.correct shell.config.queueName))) :
    Run.Agrees values (handIn work) (shell.afterCorrection work handIn) :=
  have hfirst : Run.Agrees Eq (shell.afterCorrection work handIn)
      (pure (work.correctedSignature shell.config.queueName,
        work.correct shell.config.queueName) >>= fun corrected => handIn corrected.2) :=
    (shell.correctSignature_agrees work).after fun _ => .refl _
  h.trans_eq hfirst.symm

/-- To ask for the corrected signature first makes no difference to a unit that is unaffected by it:
the same happens under the same routes, providers are sent the same, and the same comes of it. -/
theorem correction_unnoticed (work : Work) (txn : Option Transaction) (provider : String)
    (args : List Argument) (h : work.Unaffected shell.config.queueName args) :
    Run.Agrees Dispatched.Restated (shell.trySubmit work txn args)
        (shell.afterCorrection work (shell.trySubmit · txn args)) ∧
      Run.Agrees Work.Restated (shell.submit work txn args)
        (shell.afterCorrection work (shell.submit · txn args)) ∧
      Run.Agrees Work.Restated (shell.submitTo work txn provider args)
        (shell.afterCorrection work (shell.submitTo · txn provider args)) := by
  have hsettled (call : Call) (hargs : call.args = args) :
      Run.Agrees Work.Restated (shell.dispatch call work >>= settle)
        (shell.dispatch call (work.correct shell.config.queueName) >>= settle) :=
    (dispatch_agrees call (hargs ▸ h)).bind fun _ _ => settle_agrees
  refine ⟨shell.afterCorrection_agrees (shell.trySubmit · txn args) ?_,
    shell.afterCorrection_agrees (shell.submit · txn args) ?_,
    shell.afterCorrection_agrees (shell.submitTo · txn provider args) ?_⟩
  · exact dispatch_agrees ⟨0, txn, none, args⟩ h
  · exact hsettled ⟨0, txn, none, args⟩ rfl
  · exact hsettled ⟨0, txn, some provider, args⟩ rfl

def queuedSum : Work :=
  (Work.ofSignature (.ofNat 1) "sum" (.net "add" "Adder")).mapCore
    (·.mapControl ({ · with access := .pull }))

theorem correction_unnoticed_queued :
    let shell := finding none
    queuedSum.Unaffected shell.config.queueName [] ∧
      (queuedSum.correctedSignature shell.config.queueName).type = "Spacer" ∧
      Run.Agrees Work.Restated (shell.submit queuedSum none [])
        (shell.afterCorrection queuedSum (shell.submit · none [])) := by
  intro shell
  have htravels : queuedSum.Travels := fun signature hsignature => by
    obtain rfl := Option.some.inj hsignature
    rfl
  have hprocess : ∀ signature ∈ queuedSum.core.fidelities.selects, signature.isProcess := by
    intro signature hsignature
    obtain rfl := List.mem_singleton.mp hsignature
    rfl
  have hway : queuedSum.KeepsWay shell.config.queueName :=
    .inr (.inr ⟨Nat.le_refl 1, hprocess, .inr htravels⟩)
  have hunaffected : queuedSum.Unaffected shell.config.queueName [] :=
    .onItsWay hway fun name hname => by cases hname
  exact ⟨hunaffected, rfl, (shell.correction_unnoticed queuedSum none "" [] hunaffected).2.1⟩

/-- A composite without a signature runs in this process, and is sent once it is corrected. -/
theorem runsHere_uncorrected {work : Work} (h : work.core.processSignature = none)
    (queueName : String) :
    runsHere work.core = true ∧ runsHere (work.correct queueName).core = false := by
  have htarget := work.correctedSignature_target queueName
  rw [Work.requestedSignature, h, Option.getD_none] at htarget
  unfold runsHere
  rw [Work.processSignature_correct, h]
  exact ⟨rfl, congrArg Option.isSome htarget⟩

def marking : Operation := fun selector context => (context.put selector (.bool true), none)

def marked : Work := .ofSignature (.ofNat 1) "mark" (.object "add" "Shelf" marking)

def pulledMark : Work := marked.mapCore (·.mapControl ({ · with access := .pull }))

def markedBefore : Work :=
  .ofSignature (.ofNat 1) "mark" ((Signature.object "add" "Shelf" marking).withRole .prepare)

def twoWays : Work :=
  let pulled := { Signature.net "add" "Adder" with access := some .pull }
  let fidelities := .ofList [⟨"queued", [pulled]⟩, ⟨"direct", [.net "add" "Adder"]⟩]
  ⟨(Core.fresh (.ofNat 1) "sum").mapControl ({ · with fidelities }), .task none []⟩

/-- Asked for their signature first, a job whose child runs in this process is sent instead, an
operation is run under another selector, a preparation becomes a flow, and the access of one
fidelity is taken over for another. -/
theorem correction_noticed :
    let shell := finding none
    let alone := fun work args => (shell.trySubmit work none args ⟨(), .empty 20 1000⟩).value
    let later := fun work args =>
      (shell.afterCorrection work (shell.trySubmit · none args) ⟨(), .empty 20 1000⟩).value
    let order := Work.mk (Core.fresh (.ofNat 0) "order") (.job [] [marked])
    ((alone order []).work.core.status = .done ∧ (later order []).work.core.status = .failed) ∧
      ((alone pulledMark []).work.core.context.entries.keys = ["add"] ∧
        (later pulledMark []).work.core.context.entries.keys = ["exert"]) ∧
      ((alone markedBefore []).result.isOk = false ∧
        (later markedBefore []).result.isOk = true) ∧
      (alone twoWays [.fidelity "direct"]).work.core.exceptions ≠
        (later twoWays [.fidelity "direct"]).work.core.exceptions := by
  decide +kernel

end Shell
end ServiceShell
