import Reactivity.Graph.Key

namespace Reactivity

/-- The registrations on the parts of one thing, in the order in which they were made. -/
abbrev Readers := List (Key × NodeId)

namespace Readers

def on (r : Readers) (key : Key) : List NodeId :=
  (r.filter (·.1 = key)).map (·.2)

def keys (r : Readers) : List Key :=
  (r.map (·.1)).eraseDups

def add (r : Readers) (key : Key) (n : NodeId) : Readers :=
  r ++ [(key, n)]

def clear (r : Readers) (key : Key) : Readers :=
  r.filter (·.1 ≠ key)

def remove (r : Readers) (key : Key) (n : NodeId) : Readers :=
  r.erase (key, n)

theorem mem_on {r : Readers} {key : Key} {n : NodeId} : n ∈ r.on key ↔ (key, n) ∈ r := by
  simp [on]

end Readers

end Reactivity
