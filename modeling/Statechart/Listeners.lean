/-!
# Listeners

Registered listeners in the order of registration, each under a number of its own, by
which it can be taken off again.
-/

namespace Statechart

/-- Registered listeners of type `α`. -/
structure Listeners (α : Type) where
  registered : Nat := 0
  entries : List (Nat × α) := []

namespace Listeners

variable {α : Type}

/-- The number of the next listener to be registered. -/
def nextNumber (l : Listeners α) : Nat :=
  l.registered

/-- The listeners with one more. -/
def subscribe (l : Listeners α) (listener : α) : Listeners α :=
  { registered := l.registered + 1, entries := l.entries ++ [(l.registered, listener)] }

/-- The listeners without the one of the given number. -/
def unsubscribe (l : Listeners α) (number : Nat) : Listeners α :=
  { l with entries := l.entries.filter (fun e => e.1 ≠ number) }

/-- The listeners in the order in which they are notified. -/
def toList (l : Listeners α) : List α :=
  l.entries.map Prod.snd

/-- The number of listeners. -/
def size (l : Listeners α) : Nat :=
  l.entries.length

/-- No listener at all; numbers go on. -/
def clear (l : Listeners α) : Listeners α :=
  { l with entries := [] }

theorem toList_subscribe (l : Listeners α) (listener : α) :
  (l.subscribe listener).toList = l.toList ++ [listener]
  := by
  simp [subscribe, toList]

end Listeners

end Statechart
