import ServiceShell.Evaluation
import ServiceShell.Proofs.Selection
/-!
A result that is taken, and taken again: a call changes nothing in a unit but what it keeps at the
return path, which is the value that it answers. Whatever is requested, the second time it is what
the first time has left, and a result that was stored at its return path stays there through all
changes at other paths.
-/
namespace ServiceShell

open Json (Value)

theorem Evaluation.ne_trace {result : Evaluation} (h : result.toValue?.isSome)
    (faults : List Fault) : result ≠ .trace faults := by
  rintro rfl
  exact absurd h Bool.false_ne_true

theorem RequestPath.returnPath_getD (request : Option RequestPath) :
    (request.getD .empty).returnPath = request.bind RequestPath.returnPath := by
  cases request <;> rfl

def RequestPath.read (request : RequestPath) (name : String) (stored : Value) : Evaluation :=
  if request.outPaths.length > 1 then
    match Context.ofValue? name stored with
    | some nested => .context nested
    | none => .value stored
  else .value stored

theorem RequestPath.read_value (request : RequestPath) (name : String) (stored : Value) :
    (request.read name stored).toValue?.isSome := by
  unfold read
  split
  · cases Context.ofValue? name stored <;> rfl
  · rfl

namespace Context
variable {context : Context} {request : RequestPath} {result : Evaluation}

def Keeps (context : Context) (request : RequestPath) (result : Evaluation) : Prop :=
  ∃ path value, request.returnPath = some path ∧ context.entries.get? path = some value ∧
    request.read context.name value = result

theorem storedResult?_eq (context : Context) (request : RequestPath) :
    context.storedResult? request =
      (request.returnPath.bind context.get?).map (request.read context.name) := by
  unfold storedResult?
  cases request.returnPath with
  | none => rfl
  | some path =>
    simp only [Option.bind_eq_bind, Option.bind_some]
    cases context.get? path with
    | none => rfl
    | some stored =>
      simp only [Option.bind_some, Option.map_some, RequestPath.read]
      split
      · cases ofValue? context.name stored <;> rfl
      · rfl

theorem Keeps.storedResult? (h : context.Keeps request result) :
    context.storedResult? request = some result := by
  obtain ⟨path, value, hpath, hentry, rfl⟩ := h
  rw [storedResult?_eq, hpath, Option.bind_some, get?_of_entry hentry, Option.map_some]

/-- A result that is stored is the one that the second call reads. -/
structure Stores (context : Context) (request : RequestPath) (result : Evaluation)
    (settled : Context) : Prop where
  finalized : settled.finalized
  asked : settled.request = context.request
  keeps : settled.Keeps request result

theorem finalizeAt_entry (context : Context) (path : String) (value : Value) :
    (context.finalizeAt path value).entries.get? path = some value := by
  simp [finalizeAt, put]

theorem finalizeAt_stores {path : String} (hpath : request.returnPath = some path) (value : Value) :
    context.Stores request (request.read context.name value) (context.finalizeAt path value) where
  finalized := rfl
  asked := rfl
  keeps := ⟨path, value, hpath, context.finalizeAt_entry path value, rfl⟩

theorem ofValue?_select (context : Context) (paths : List String) :
    ofValue? context.name (context.select paths).toValue = some (context.select paths) := by
  obtain ⟨entries, hselected⟩ := context.select_eq paths
  rw [hselected]
  simp only [ofValue?, toValue, OrderedMap.ofList_toList]

/-- How a call leaves the context: as it was, or with a value stored at the return path, which is
the value of the result and answers the same when it is read. -/
inductive Taken (context : Context) (request : RequestPath) : Evaluation × Context → Prop
  | read {result : Evaluation} (hvalue : result.toValue?.isSome) :
      Taken context request (result, context)
  | stored {result : Evaluation} {path : String} {value : Value}
      (hpath : request.returnPath = some path) (hvalue : result.toValue? = some value)
      (hread : request.read context.name value = result) :
      Taken context request (result, context.finalizeAt path value)

theorem Taken.settles {taken : Evaluation × Context} (h : context.Taken request taken) :
    taken.2 = context ∨ context.Stores request taken.1 taken.2 := by
  cases h with
  | read => exact .inl rfl
  | stored hpath _ hread => exact .inr (hread ▸ finalizeAt_stores hpath _)

theorem unrequested_taken (context : Context) (natural : Option Value) (args : List Argument)
    (request : RequestPath) :
    context.Taken request (context.unrequested natural args, context) := by
  refine .read ?_
  unfold unrequested
  split
  · rfl
  · split <;> rfl

/-- A call with several outputs stores them only where the return path has nothing to give. -/
theorem requestedOutputs_taken (hseveral : request.outPaths.length > 1) :
    context.Taken request (context.requestedOutputs request.outPaths request.returnPath) := by
  have hstored {path : String} (hpath : request.returnPath = some path) :
      context.Taken request (.context (context.select request.outPaths),
        context.finalizeAt path (context.select request.outPaths).toValue) := by
    refine .stored hpath rfl ?_
    rw [RequestPath.read, if_pos hseveral, ofValue?_select]
  unfold requestedOutputs
  cases hpath : request.returnPath with
  | none => exact .read rfl
  | some path =>
    dsimp only
    -- at the return path there is an object, null, nothing, or another value
    split
    · split <;> exact .read rfl
    · exact hstored hpath
    · exact hstored hpath
    · exact .read rfl

theorem requested_taken (context : Context) (composite : Bool) (natural : Option Value)
    (args : List Argument) (request : RequestPath) :
    context.Taken request (context.requested composite natural args request) := by
  obtain ⟨outs, path⟩ := request
  rcases outs with _ | ⟨out, _ | ⟨other, rest⟩⟩
  · cases path with
    | none => exact unrequested_taken context natural args _
    | some path =>
      unfold requested
      dsimp only
      split
      · exact .read rfl
      · exact unrequested_taken context natural args _
  · cases path with
    | none => cases composite <;> exact .read rfl
    | some path => exact .stored rfl rfl rfl
  · have hseveral : (RequestPath.mk (out :: other :: rest) path).outPaths.length > 1 := by simp
    exact requestedOutputs_taken hseveral

/-- A finalized context answers what it keeps, whatever else has changed. -/
theorem evaluate_of_keeps (hfinalized : context.finalized)
    (h : context.Keeps (context.request.getD .empty) result) (composite : Bool)
    (natural : Option Value) (args : List Argument) :
    context.evaluate composite natural args = (result, context) := by
  unfold evaluate
  dsimp only
  rw [if_pos hfinalized, h.storedResult?]

theorem evaluate_taken (context : Context) (composite : Bool) (natural : Option Value)
    (args : List Argument) : context.Taken (context.request.getD .empty)
      (context.evaluate composite natural args) := by
  unfold evaluate
  dsimp only
  split
  · rename_i stored hstored
    refine .read ?_
    obtain ⟨-, hresult⟩ := Option.ite_none_right_eq_some.mp hstored
    rw [storedResult?_eq, Option.map_eq_some_iff] at hresult
    obtain ⟨value, -, rfl⟩ := hresult
    exact RequestPath.read_value _ _ _
  · exact context.requested_taken composite natural args _

end Context

inductive PathChange where
  | put (path : String) (value : Value)
  | remove (path : String)

namespace PathChange

def path : PathChange → String
  | put path _ => path
  | remove path => path

def apply (context : Context) : PathChange → Context
  | put path value => context.put path value
  | remove path => context.remove path

theorem keeps {context : Context} {request : RequestPath} {result : Evaluation}
    (h : context.Keeps request result) {change : PathChange}
    (hother : request.returnPath ≠ some change.path) :
    (change.apply context).Keeps request result := by
  obtain ⟨path, value, hpath, hentry, hread⟩ := h
  have hne : change.path ≠ path := fun heq => hother (heq ▸ hpath)
  refine ⟨path, value, hpath, ?_, ?_⟩
  · cases change with
    | put other new => simpa [apply, Context.put, show other ≠ path from hne] using hentry
    | remove other => simpa [apply, Context.remove, show other ≠ path from hne] using hentry
  · cases change <;> exact hread

/-- Changes at other paths than the return path leave the kept result alone. -/
theorem keeps_all {context : Context} {request : RequestPath} {result : Evaluation}
    {changes : List PathChange} (h : context.Keeps request result)
    (hothers : ∀ change ∈ changes, request.returnPath ≠ some change.path) :
    let changed := changes.foldl apply context
    changed.Keeps request result ∧ changed.request = context.request ∧
      changed.finalized = context.finalized := by
  induction changes generalizing context with
  | nil => exact ⟨h, rfl, rfl⟩
  | cons change rest ih =>
    obtain ⟨hchange, hrest⟩ := List.forall_mem_cons.mp hothers
    obtain ⟨hkeeps, hasked, hfinalized⟩ := ih (keeps h hchange) hrest
    refine ⟨hkeeps, hasked.trans ?_, hfinalized.trans ?_⟩ <;> cases change <;> rfl

end PathChange

namespace Work
variable {work : Work} {args : List Argument}

def asked (work : Work) (args : List Argument) : Work :=
  match Argument.request? args with
  | some path => work.mapCore (·.mapContext ({ · with request := some path }))
  | none => work

theorem mapContext_self (work : Work) :
    work.mapCore (·.mapContext fun _ => work.core.context) = work := by
  cases work
  rfl

theorem finalize_open (hlog : work.core.exceptions = []) (hunfailed : work.core.hasFailed = false)
    (args : List Argument) :
    let asked := work.asked args
    let taken := asked.core.context.evaluate asked.isComposite asked.result? args
    work.finalize args = (taken.1, asked.mapCore (·.mapContext fun _ => taken.2)) := by
  have hunlogged : ¬ (!work.core.exceptions.isEmpty) = true := by simp [hlog]
  exact (if_neg hunlogged).trans (if_neg (Bool.eq_false_iff.mp hunfailed))

theorem finalize_trace (h : ¬ (work.core.exceptions = [] ∧ work.core.hasFailed = false)) :
    ∃ faults, ∀ args, work.finalize args = (.trace faults, work) := by
  unfold finalize
  cases hlog : work.core.exceptions.isEmpty with
  | false => exact ⟨work.core.exceptions, fun _ => rfl⟩
  | true =>
    have hfailed : work.core.hasFailed = true :=
      Bool.of_not_eq_false fun hunfailed => h ⟨List.isEmpty_iff.mp hlog, hunfailed⟩
    exact ⟨work.units.flatMap (·.core.exceptions), fun args => by rw [if_pos hfailed]; rfl⟩

theorem asked_eq (work : Work) (args : List Argument) : work.asked args =
    work.mapCore (·.mapContext fun context =>
      { context with request := (Argument.request? args).or context.request }) := by
  obtain ⟨⟨_, _, ⟨_, _, _, request, _⟩, _, _, _, _, _, _⟩, body⟩ := work
  unfold asked
  cases Argument.request? args <;> rfl

theorem asked_request {path : RequestPath} (h : Argument.request? args = some path) :
    (work.asked args).core.context.request = some path := by
  unfold asked
  rw [h]
  rfl

theorem asked_eq_self
    (h : ∀ path, Argument.request? args = some path → work.core.context.request = some path) :
    work.asked args = work := by
  unfold asked
  cases hargs : Argument.request? args with
  | none => rfl
  | some path =>
    obtain ⟨⟨id, name, context, control, status, exceptions, returnPath, persisters, dependers⟩,
      body⟩ := work
    obtain ⟨name, entries, scope, request, finalized⟩ := context
    obtain rfl : request = some path := h path hargs
    rfl

theorem asked_core (work : Work) (args : List Argument) :
    (work.asked args).core.exceptions = work.core.exceptions ∧
      (work.asked args).core.hasFailed = work.core.hasFailed ∧
      (work.asked args).core.context.entries = work.core.context.entries ∧
      (work.asked args).core.context.finalized = work.core.context.finalized := by
  unfold asked
  split <;> exact ⟨rfl, rfl, rfl, rfl⟩

structure Settled (work : Work) (result : Evaluation) : Prop where
  log : work.core.exceptions = []
  unfailed : work.core.hasFailed = false
  finalized : work.core.context.finalized
  keeps : work.core.context.Keeps (work.core.context.request.getD .empty) result

namespace Settled
variable {result : Evaluation}

theorem finalize (h : work.Settled result)
    (hasked : ∀ path, Argument.request? args = some path →
      work.core.context.request = some path) : work.finalize args = (result, work) := by
  rw [finalize_open h.log h.unfailed, asked_eq_self hasked,
    work.core.context.evaluate_of_keeps h.finalized h.keeps]
  exact congrArg (Prod.mk result) work.mapContext_self

theorem changed (h : work.Settled result) {changes : List PathChange}
    (hothers : ∀ change ∈ changes,
      work.core.context.request.bind RequestPath.returnPath ≠ some change.path) :
    (work.mapCore (·.mapContext (changes.foldl PathChange.apply))).Settled result := by
  obtain ⟨hkeeps, hrequest, hfinalized⟩ := PathChange.keeps_all h.keeps
    ((RequestPath.returnPath_getD _).symm ▸ hothers)
  rw [← hrequest] at hkeeps
  exact ⟨h.log, h.unfailed, hfinalized.trans h.finalized, hkeeps⟩

end Settled

/-- A call leaves the data as it is and gives the same when it is repeated, or it has stored what
it gives. -/
theorem finalize_cases (work : Work) (args : List Argument) :
    let first := work.finalize args
    (first.2.core.context.entries = work.core.context.entries ∧
      first.2.core.context.finalized = work.core.context.finalized ∧
      first.2.finalize args = first) ∨
    first.2.Settled first.1 ∧
      ∀ path, Argument.request? args = some path → first.2.core.context.request = some path := by
  by_cases hopen : work.core.exceptions = [] ∧ work.core.hasFailed = false
  · obtain ⟨hlog, hunfailed⟩ := hopen
    obtain ⟨haskedLog, haskedFailed, hentries, hflag⟩ := work.asked_core args
    have hrequest (path : RequestPath) (h : Argument.request? args = some path) :
        (work.asked args).core.context.request = some path := asked_request h
    have hsettles := ((work.asked args).core.context.evaluate_taken (work.asked args).isComposite
      (work.asked args).result? args).settles
    rw [finalize_open hlog hunfailed]
    rw [← haskedLog] at hlog
    rw [← haskedFailed] at hunfailed
    -- from here on only the unit with the request path installed counts
    generalize work.asked args = asked at *
    dsimp only at hsettles ⊢
    obtain hkept | ⟨hfinalized, hasked, hkeeps⟩ := hsettles
    · have hsame : asked.mapCore (·.mapContext fun _ => (asked.core.context.evaluate
          asked.isComposite asked.result? args).2) = asked := by
        rw [hkept, mapContext_self]
      rw [hsame]
      refine .inl ⟨hentries, hflag, ?_⟩
      rw [finalize_open hlog hunfailed, asked_eq_self hrequest, hsame]
    · rw [← hasked] at hkeeps
      exact .inr ⟨⟨hlog, hunfailed, hfinalized, hkeeps⟩,
        fun path hpath => hasked.trans (hrequest path hpath)⟩
  · obtain ⟨faults, htrace⟩ := finalize_trace hopen
    rw [htrace args]
    exact .inl ⟨rfl, rfl, htrace args⟩

/-- A result can be taken any number of times: with the same arguments it stays the same, and the
unit is changed by the first call only. If that call has finalized the unit, or changed its data,
then changes at other paths than the return path do not count, and no arguments are needed. -/
theorem finalize_settles (work : Work) (args : List Argument) :
    let first := work.finalize args
    first.2.finalize args = first ∧
      ((work.core.context.finalized = false ∨
          first.2.core.context.entries ≠ work.core.context.entries) →
        first.2.core.context.finalized → ∀ changes : List PathChange,
        (∀ change ∈ changes,
          first.2.core.context.request.bind RequestPath.returnPath ≠ some change.path) →
        let changed := first.2.mapCore (·.mapContext (changes.foldl PathChange.apply))
        changed.finalize [] = (first.1, changed)) := by
  intro first
  obtain ⟨hentries, hflag, hagain⟩ | ⟨hsettled, hasked⟩ := work.finalize_cases args
  · refine ⟨hagain, fun hset hfinalized => ?_⟩
    obtain hunset | hchanged := hset
    · exact absurd (hunset.symm.trans (hflag.symm.trans hfinalized)) Bool.false_ne_true
    · exact absurd hentries hchanged
  · refine ⟨hsettled.finalize hasked, fun _ _ changes hothers => ?_⟩
    exact (hsettled.changed hothers).finalize (by simp [Argument.request?])

def totalled : Work :=
  (ofSignature (.ofNat 0) "invoice" (.net "add" "Adder")).mapCore
    (·.mapContext (·.put "total" (.ofInt 42)))

theorem finalize_settles_totalled :
    let args := [Argument.request ⟨["total"], some "answer"⟩]
    let first := totalled.finalize args
    let changed := first.2.mapCore (·.mapContext (·.put "total" (.ofInt 0)))
    (totalled.core.context.finalized = false ∧ first.2.core.context.finalized) ∧
      changed.finalize [] = (first.1, changed) ∧ first.1.toValue? = some (.ofInt 42) := by
  intro args first changed
  have hset : totalled.core.context.finalized = false := rfl
  have hfinalized : first.2.core.context.finalized := rfl
  refine ⟨⟨hset, hfinalized⟩, ?_, rfl⟩
  refine (totalled.finalize_settles args).2 (.inl hset) hfinalized [.put "total" (.ofInt 0)] ?_
  decide +kernel

/-- A call that answers with a trace leaves the unit as it is. Any other one puts the request path
among the arguments, if there is one, into the context, and changes at most one entry besides, the
one at the return path. If it has finalized the unit, or changed its data, then what is found there
is the value that it answered. -/
theorem finalize_keeps_answer (work : Work) (args : List Argument) :
    let taken := work.finalize args
    let before := work.core.context
    let after := taken.2.core.context
    let request := (Argument.request? args).or before.request
    (∀ faults, taken.1 = .trace faults → taken.2 = work) ∧
      ((∀ faults, taken.1 ≠ .trace faults) → ∃ entries finalized,
        taken.2 = work.mapCore (·.mapContext ({ · with request, entries, finalized })) ∧
          (entries = before.entries ∨ ∃ path value,
            request.bind RequestPath.returnPath = some path ∧
              entries = before.entries.put path value)) ∧
      (before.finalized = false ∧ after.finalized = true ∨ after.entries ≠ before.entries →
        ∃ path value, request.bind RequestPath.returnPath = some path ∧
          after.entries.get? path = some value ∧ taken.1.toValue? = some value) := by
  by_cases hopen : work.core.exceptions = [] ∧ work.core.hasFailed = false
  · obtain ⟨hlog, hunfailed⟩ := hopen
    have htaken := (work.asked args).core.context.evaluate_taken (work.asked args).isComposite
      (work.asked args).result? args
    rw [finalize_open hlog hunfailed]
    -- from here on only the result and the context that the call leaves count
    generalize (work.asked args).core.context.evaluate (work.asked args).isComposite
      (work.asked args).result? args = taken at htaken ⊢
    rw [asked_eq] at htaken ⊢
    cases htaken with
    | read hvalue =>
      refine ⟨fun faults htrace => absurd htrace (Evaluation.ne_trace hvalue faults),
        fun _ => ⟨_, work.core.context.finalized, rfl, .inl rfl⟩, ?_⟩
      rintro (⟨hunset, hset⟩ | hchanged)
      · exact absurd (hunset.symm.trans hset) Bool.false_ne_true
      · exact absurd rfl hchanged
    | @stored _ path value hpath hvalue =>
      rw [RequestPath.returnPath_getD] at hpath
      have hsome := Option.isSome_of_eq_some hvalue
      exact ⟨fun faults htrace => absurd htrace (Evaluation.ne_trace hsome faults),
        fun _ => ⟨_, true, rfl, .inr ⟨path, value, hpath, rfl⟩⟩,
        fun _ => ⟨path, value, hpath, Context.finalizeAt_entry _ path value, hvalue⟩⟩
  · obtain ⟨faults, htrace⟩ := finalize_trace hopen
    rw [htrace args]
    dsimp only
    refine ⟨fun _ _ => rfl, fun hanswer => absurd rfl (hanswer faults), ?_⟩
    rintro (⟨hunset, hset⟩ | hchanged)
    · exact absurd (hunset.symm.trans hset) Bool.false_ne_true
    · exact absurd rfl hchanged

def overdrawn : Work := totalled.mapCore (·.fail (.exception "overdrawn"))

theorem finalize_keeps_answer_selected :
    let args := [Argument.request ⟨["total", "tax", "total"], some "answer"⟩]
    let taken := totalled.finalize args
    let after := taken.2.core.context
    (totalled.core.context.finalized = false ∧ after.finalized = true) ∧
      after.entries.get? "answer" = some (.object [("total", .ofInt 42)]) ∧
      taken.1.toValue? = some (.object [("total", .ofInt 42)]) ∧
      (∃ entries finalized, taken.2 = totalled.mapCore (·.mapContext
        ({ · with request := Argument.request? args, entries, finalized }))) ∧
      (overdrawn.finalize args).1 = .trace [.exception "overdrawn"] ∧
      (overdrawn.finalize args).2 = overdrawn := by
  intro args taken after
  obtain ⟨-, hframe, hstored⟩ := totalled.finalize_keeps_answer args
  have hset : totalled.core.context.finalized = false ∧ after.finalized = true := ⟨rfl, rfl⟩
  have hvalued : taken.1.toValue? = some (.object [("total", .ofInt 42)]) := rfl
  obtain ⟨path, value, hpath, hkept, hvalue⟩ := hstored (.inl hset)
  obtain rfl : "answer" = path := Option.some.inj hpath
  obtain ⟨entries, finalized, hafter, -⟩ :=
    hframe (Evaluation.ne_trace (Option.isSome_of_eq_some hvalued))
  have htrace : (overdrawn.finalize args).1 = .trace [.exception "overdrawn"] := rfl
  exact ⟨hset, hkept.trans (hvalue.symm.trans hvalued), hvalued, ⟨entries, finalized, hafter⟩,
    htrace, (overdrawn.finalize_keeps_answer args).1 _ htrace⟩

end Work
end ServiceShell
