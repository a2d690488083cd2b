import Mathlib.Data.List.Forall2
import ServiceShell.Proofs.StandIn
/-!
Two shells side by side, each in a world of its own. Their computations are alike if from alike
worlds they come to alike values and alike worlds, through histories in which the same things
happen. The ids of the units that a shell makes itself do not count, nor do the times of reports and
the search for providers.
-/
namespace ServiceShell
variable {σ τ α β γ δ : Type}

def Core.Twin (same : Uuid → Uuid → Prop) (core other : Core) : Prop :=
  ∃ id, same core.id id ∧ other = { core with id }

structure Work.Twin (same : Uuid → Uuid → Prop) (work other : Work) : Prop where
  core : work.core.Twin same other.core
  body : other.body = work.body

structure Attempt.Twin (same : Uuid → Uuid → Prop) (attempt other : Attempt) : Prop where
  work : attempt.work.Twin same other.work
  result : attempt.result = other.result

structure Dispatched.Twin (same : Uuid → Uuid → Prop) (ended other : Dispatched) : Prop where
  work : ended.work.Twin same other.work
  result : ended.result = other.result

structure Core.TwinWith {ε : Type} (same : Uuid → Uuid → Prop) (left right : Core × ε) : Prop where
  core : left.1.Twin same right.1
  rest : left.2 = right.2

inductive AnswerTwin {ε : Type} (same : Uuid → Uuid → Prop) :
    Except ε (Option Work) → Except ε (Option Work) → Prop
  | ok {result other : Option Work} : Option.Rel (Work.Twin same) result other →
    AnswerTwin same (.ok result) (.ok other)
  | error (error : ε) : AnswerTwin same (.error error) (.error error)

structure TraceEntry.Twin (same : Uuid → Uuid → Prop) (entry other : TraceEntry) : Prop where
  unit : same entry.unit other.unit
  rest : other = { entry with timestamp := other.timestamp, unit := other.unit }

namespace Event

def isSearch : Event → Bool
  | located .. | found .. | pinged .. => true
  | note (.locateFailed ..) | note (.discoveryFailed ..) | note (.providerDead ..) => true
  | note (.cachedProviderDead ..) | note (.noProvider _) => true
  | _ => false

inductive Twin (same : Uuid → Uuid → Prop) : Event → Event → Prop
  | note (note : Note) : Twin same (.note note) (.note note)
  | dispatched (depth : Nat) {unit other : Work} : unit.Twin same other →
    Twin same (.dispatched depth unit) (.dispatched depth other)
  | invoked (provider : Provider) {sent other : Work} (txn : Option Transaction)
      (args : List Argument) {answer otherAnswer : Except RemoteError (Option Work)} :
    sent.Twin same other → AnswerTwin same answer otherAnswer →
      Twin same (.invoked provider sent txn args answer)
        (.invoked provider other txn args otherAnswer)
  | created (answer : Except RemoteError Transaction) :
    Twin same (.created answer) (.created answer)
  | locked (key : String) {owner other : Uuid} (txn : Transaction)
      (answer : Except RemoteError Bool) : same owner other →
    Twin same (.locked key owner txn answer) (.locked key other txn answer)
  | committed (txn : Transaction) (answer : Except RemoteError Unit) :
    Twin same (.committed txn answer) (.committed txn answer)
  | aborted (txn : Transaction) (answer : Except RemoteError Unit) :
    Twin same (.aborted txn answer) (.aborted txn answer)
  | realized {unit other : Uuid} (depender : String) : same unit other →
    Twin same (.realized unit depender) (.realized other depender)
  | operated {unit other : Uuid} (signature : Signature) : same unit other →
    Twin same (.operated unit signature) (.operated other signature)
  | computed {unit other : Uuid} (procedures : List Procedure) : same unit other →
    Twin same (.computed unit procedures) (.computed other procedures)
  | stored (slot : String) (value : Json.Value) :
    Twin same (.stored slot value) (.stored slot value)
  | recorded {entry other : TraceEntry} : entry.Twin same other →
    Twin same (.recorded entry) (.recorded other)
  | flushed : Twin same .flushed .flushed

end Event

/-- The same things have happened, the search for providers aside. -/
def SameHistory (same : Uuid → Uuid → Prop) (events others : List Event) : Prop :=
  (events.filter (!·.isSearch)).Forall₂ (Event.Twin same) (others.filter (!·.isSearch))

namespace SameHistory
variable {same : Uuid → Uuid → Prop} {events others later lasts : List Event}

theorem nil : SameHistory same [] [] := List.Forall₂.nil

theorem append (h : SameHistory same events others) (hlater : SameHistory same later lasts) :
    SameHistory same (events ++ later) (others ++ lasts) := by
  unfold SameHistory
  rw [List.filter_append, List.filter_append]
  exact List.rel_append h hlater

theorem of_forall₂ (h : List.Forall₂ (Event.Twin same) events others) :
    SameHistory same events others := by
  induction h with
  | nil => exact .nil
  | cons htwin _ ih =>
    have hsearch (event other : Event) (h : event.Twin same other) :
        event.isSearch = other.isSearch := by
      cases h <;> rfl
    unfold SameHistory at ih ⊢
    rw [List.filter_cons, List.filter_cons, hsearch _ _ htwin]
    split
    · exact .cons htwin ih
    · exact ih

theorem singleton {event other : Event} (h : event.Twin same other) :
    SameHistory same [event] [other] :=
  of_forall₂ (.cons h .nil)

theorem of_search (hevents : ∀ event ∈ events, event.isSearch)
    (hothers : ∀ event ∈ others, event.isSearch) : SameHistory same events others := by
  have hnone {list : List Event} (h : ∀ event ∈ list, event.isSearch) :
      list.filter (!·.isSearch) = [] :=
    List.filter_eq_nil_iff.mpr fun event hevent => by simp [h event hevent]
  rw [SameHistory, hnone hevents, hnone hothers]
  exact .nil

end SameHistory

/-- Which ids are taken for the same, and which worlds are alike. -/
structure Likeness (σ τ : Type) where
  same : Uuid → Uuid → Prop
  worlds : World σ → World τ → Prop

structure Outcome.Alike (like : Likeness σ τ) (values : α → β → Prop) (outcome : Outcome σ α)
    (other : Outcome τ β) : Prop where
  value : values outcome.value other.value
  world : like.worlds outcome.world other.world
  events : SameHistory like.same outcome.events other.events

def Run.Alike (like : Likeness σ τ) (values : α → β → Prop) (x : Run σ α) (y : Run τ β) : Prop :=
  ∀ world other, like.worlds world other → Outcome.Alike like values (x world) (y other)

namespace Run.Alike
variable {like : Likeness σ τ} {values : α → β → Prop} {others : γ → δ → Prop}
  {x : Run σ α} {y : Run τ β}

theorem pure {value : α} {other : β} (h : values value other) :
    Run.Alike like values (Pure.pure value : Run σ α) (Pure.pure other : Run τ β) :=
  fun _ _ hworlds => ⟨h, hworlds, .nil⟩

theorem bind {f : α → Run σ γ} {g : β → Run τ δ} (h : Run.Alike like values x y)
    (hf : ∀ value other, values value other → Run.Alike like others (f value) (g other)) :
    Run.Alike like others (x >>= f) (y >>= g) := by
  intro world other hworlds
  have hfirst := h world other hworlds
  have hsecond := hf _ _ hfirst.value _ _ hfirst.world
  exact ⟨hsecond.value, hsecond.world, hfirst.events.append hsecond.events⟩

theorem map {f : α → γ} {g : β → δ} (h : Run.Alike like values x y)
    (hf : ∀ value other, values value other → others (f value) (g other)) :
    Run.Alike like others (f <$> x) (g <$> y) := by
  rw [← bind_pure_comp, ← bind_pure_comp]
  exact h.bind fun value other hvalue => pure (hf value other hvalue)

theorem mono {weaker : α → β → Prop} (h : Run.Alike like values x y)
    (hw : ∀ value other, values value other → weaker value other) : Run.Alike like weaker x y :=
  fun world other hworlds =>
    ⟨hw _ _ (h world other hworlds).value, (h world other hworlds).world,
      (h world other hworlds).events⟩

theorem emit {event other : Event} (h : event.Twin like.same other) :
    Run.Alike like Eq (Run.emit event : Run σ Unit) (Run.emit other : Run τ Unit) :=
  fun _ _ hworlds => ⟨rfl, hworlds, .singleton h⟩

theorem note (n : Note) :
    Run.Alike like Eq (Run.note n : Run σ Unit) (Run.note n : Run τ Unit) :=
  emit (.note n)

theorem noteAll (notes : List Note) :
    Run.Alike like Eq (Run.noteAll notes : Run σ Unit) (Run.noteAll notes : Run τ Unit) :=
  fun _ _ hworlds => ⟨rfl, hworlds, .of_forall₂ (List.forall₂_map_left_iff.mpr
    (List.forall₂_map_right_iff.mpr (List.forall₂_same.mpr fun n _ => .note n)))⟩

theorem after {x : Run σ Unit} {y : Run τ Unit} {f : Unit → Run σ γ} {g : Unit → Run τ δ}
    (h : Run.Alike like Eq x y) (hf : Run.Alike like others (f ()) (g ())) :
    Run.Alike like others (x >>= f) (y >>= g) :=
  h.bind fun _ _ _ => hf

end Run.Alike

namespace Core.Twin
variable {same : Uuid → Uuid → Prop} {core other : Core}

theorem refl (hrefl : ∀ id, same id id) (core : Core) : core.Twin same core :=
  ⟨core.id, hrefl core.id, rfl⟩

theorem map (h : core.Twin same other) (change : Core → Core)
    (hid : (change core).id = core.id)
    (hchange : ∀ id, change { core with id } = { change core with id }) :
    (change core).Twin same (change other) := by
  obtain ⟨id, hsame, rfl⟩ := h
  exact ⟨id, hid ▸ hsame, hchange id⟩

theorem mono {weaker : Uuid → Uuid → Prop} (h : core.Twin same other)
    (hw : ∀ {id last}, same id last → weaker id last) : core.Twin weaker other := by
  obtain ⟨id, hsame, rfl⟩ := h
  exact ⟨id, hw hsame, rfl⟩

theorem eq (h : core.Twin Eq other) : other = core := by
  obtain ⟨id, rfl, rfl⟩ := h
  rfl

theorem fail (h : core.Twin same other) (fault : Fault) :
    (core.fail fault).Twin same (other.fail fault) :=
  h.map (·.fail fault) rfl fun _ => rfl

theorem setStatus (h : core.Twin same other) (status : State) :
    (core.setStatus status).Twin same (other.setStatus status) :=
  h.map (·.setStatus status) rfl fun _ => rfl

theorem finish (h : core.Twin same other) : core.finish.Twin same other.finish :=
  h.map Core.finish rfl fun _ => rfl

theorem mapControl (h : core.Twin same other) (change : Control → Control) :
    (core.mapControl change).Twin same (other.mapControl change) :=
  h.map (·.mapControl change) rfl fun _ => rfl

theorem failWith (h : core.Twin same other) (faults : List Fault) (summary : String) :
    (Shell.failWith core faults summary).Twin same (Shell.failWith other faults summary) := by
  have hlog (faults : List Fault) :
      (faults.foldl Core.fail core).Twin same (faults.foldl Core.fail other) := by
    induction faults generalizing core other with
    | nil => exact h
    | cons fault rest ih => exact ih (h.fail fault)
  have hname : other.name = core.name := by
    obtain ⟨id, -, rfl⟩ := h
    rfl
  unfold Shell.failWith
  rw [hname]
  split
  · exact h.fail _
  · exact hlog faults

theorem takeBack {result last : Core} {any : Uuid → Uuid → Prop} (h : core.Twin same other)
    (hresult : result.Twin any last) :
    (Shell.takeBack core result).Twin same (Shell.takeBack other last) := by
  obtain ⟨id, -, rfl⟩ := hresult
  unfold Shell.takeBack
  refine h.map (Shell.takeBack · result) ?_ fun id => ?_
  · unfold Shell.takeBack
    dsimp only
    split <;> rfl
  · unfold Shell.takeBack
    dsimp only
    split <;> rfl

theorem shown_eq (h : core.Twin same other) : other.shown = core.shown := by
  obtain ⟨id, -, rfl⟩ := h
  rfl

theorem hasFailed_eq (h : core.Twin same other) : other.hasFailed = core.hasFailed := by
  obtain ⟨id, -, rfl⟩ := h
  rfl

end Core.Twin

namespace Work.Twin
variable {same : Uuid → Uuid → Prop} {work other : Work}

theorem refl (hrefl : ∀ id, same id id) (work : Work) : work.Twin same work :=
  ⟨.refl hrefl work.core, rfl⟩

theorem mono {weaker : Uuid → Uuid → Prop} (h : work.Twin same other)
    (hw : ∀ {id last}, same id last → weaker id last) : work.Twin weaker other :=
  ⟨h.core.mono hw, h.body⟩

theorem eq (h : work.Twin Eq other) : other = work := by
  obtain ⟨core, body⟩ := work
  obtain ⟨otherCore, otherBody⟩ := other
  obtain ⟨hcore, hbody⟩ := h
  obtain rfl : otherCore = core := hcore.eq
  obtain rfl : otherBody = body := hbody
  rfl

theorem of_core {core other : Core} (h : core.Twin same other) (body : Body Work) :
    Work.Twin same ⟨core, body⟩ ⟨other, body⟩ :=
  ⟨h, rfl⟩

theorem name_eq (h : work.Twin same other) : other.name = work.name := by
  obtain ⟨⟨id, -, hcore⟩, -⟩ := h
  rw [name, name, hcore]

theorem fail (h : work.Twin same other) (fault : Fault) :
    (work.mapCore (·.fail fault)).Twin same (other.mapCore (·.fail fault)) :=
  ⟨h.core.fail fault, h.body⟩

end Work.Twin

structure Likeness.Shells (like : Likeness σ τ) (shell : Shell σ) (other : Shell τ) : Prop where
  depth : other.config.maxDelegationDepth = shell.config.maxDelegationDepth
  refl : ∀ id, like.same id id
  fresh : Run.Alike like like.same (Run.draw shell.collaborators.freshId)
    (Run.draw other.collaborators.freshId)

/-- Ids that are taken for the same in a stricter sense: two that stand in place of such ids are
taken for the same likewise, if they are the same where those are. -/
structure Likeness.Grade (like : Likeness σ τ) (r : Uuid → Uuid → Prop) : Prop where
  same {id other : Uuid} : r id other → like.same id other
  keeps {id other last otherLast : Uuid} : r id other → like.same last otherLast →
    (id = other → last = otherLast) → r last otherLast

theorem Likeness.grade_same (like : Likeness σ τ) : like.Grade like.same := ⟨id, fun _ h _ => h⟩

theorem Likeness.Shells.grade_eq {like : Likeness σ τ} {shell : Shell σ} {other : Shell τ}
    (h : like.Shells shell other) : like.Grade Eq :=
  ⟨fun heq => heq ▸ h.refl _, fun heq _ hkeeps => hkeeps heq⟩

end ServiceShell
