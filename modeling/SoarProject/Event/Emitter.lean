import SoarProject.Failure

/-!
# Events

A database announces that its records changed, or that it now stands at another place. An emitter
keeps the listeners in the order in which they subscribed. Each event reaches exactly the listeners
that were subscribed when it was emitted, even if they subscribe or unsubscribe others meanwhile.
-/

namespace SoarProject

/-- What a database announces. -/
inductive EventKind where
  /-- Records changed. -/
  | databaseChanged
  /-- The database stands at another place, or was replaced as a whole. -/
  | databasePathChanged
  deriving DecidableEq

namespace EventKind

/-- The name of an event. -/
def name : EventKind → String
  | .databaseChanged => "DATABASE_CHANGED"
  | .databasePathChanged => "DATABASE_PATH_CHANGED"

/-- Read the name of an event. -/
def ofName? (s : String) : Option EventKind :=
  [databaseChanged, databasePathChanged].find? (·.name == s)

end EventKind

/-- The listeners of a database. -/
structure Emitter (α : Type) where
  /-- The listeners, in the order in which they are called. -/
  listeners : List α := []

namespace Emitter

variable {α : Type} [DecidableEq α]

/-- Add a listener that is not subscribed yet. -/
def subscribe (e : Emitter α) (listener : α) : Except Failure (Emitter α) :=
  if listener ∈ e.listeners then .error .alreadySubscribed
  else .ok ⟨e.listeners ++ [listener]⟩

/-- Remove a listener. -/
def unsubscribe (e : Emitter α) (listener : α) : Except Failure (Emitter α) :=
  if listener ∈ e.listeners then .ok ⟨e.listeners.erase listener⟩ else .error .notSubscribed

/-- Call every listener in turn. A call that fails ends the emission. -/
def emit {m : Type → Type} [Monad m] (e : Emitter α) (call : α → EventKind → m Unit)
    (event : EventKind) : m Unit :=
  e.listeners.forM (call · event)

end Emitter

end SoarProject
