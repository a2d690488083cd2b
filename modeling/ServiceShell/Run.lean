import ServiceShell.Cache
import ServiceShell.Event
/-!
Computations of a shell: they read and change the environment of the collaborators and the provider
cache, and leave the events that happened, in order.
-/
namespace ServiceShell

structure World (σ : Type) where
  env : σ
  cache : Cache

structure Outcome (σ α : Type) where
  value : α
  world : World σ
  events : List Event

def Run (σ α : Type) : Type := World σ → Outcome σ α

namespace Run
variable {σ α β : Type}

def pure (value : α) : Run σ α := fun world => ⟨value, world, []⟩

def bind (x : Run σ α) (f : α → Run σ β) : Run σ β := fun world =>
  let first := x world
  let second := f first.value first.world
  ⟨second.value, second.world, first.events ++ second.events⟩

instance : Monad (Run σ) where
  pure := pure
  bind := bind

instance : LawfulMonad (Run σ) := LawfulMonad.mk' (Run σ)
  (by intro α x; funext world; simp [Functor.map, bind, pure])
  (by intro α β x f; funext world; simp [Bind.bind, Pure.pure, bind, pure])
  (by intro α β γ x f g; funext world; simp [Bind.bind, bind, List.append_assoc])

def emit (event : Event) : Run σ Unit := fun world => ⟨(), world, [event]⟩

def note (note : Note) : Run σ Unit := emit (.note note)

def noteAll (notes : List Note) : Run σ Unit := fun world => ⟨(), world, notes.map .note⟩

/-- Asks a collaborator, and keeps the question with its answer. -/
def ask (question : σ → α × σ) (event : α → Event) : Run σ α := fun world =>
  let (answer, env) := question world.env
  ⟨answer, { world with env }, [event answer]⟩

def draw (source : σ → α × σ) : Run σ α := fun world =>
  let (value, env) := source world.env
  ⟨value, { world with env }, []⟩

def useCache (clock : σ → Nat) (use : Nat → Cache → α × Cache) : Run σ α := fun world =>
  let (value, cache) := use (clock world.env) world.cache
  ⟨value, { world with cache }, []⟩

end Run
end ServiceShell
