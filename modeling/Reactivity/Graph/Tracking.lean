import Reactivity.World

namespace Reactivity

/-- Registers the innermost computation of a runtime on a part of a thing that it reads. A
computation is registered on a part once. -/
def track (rt : RuntimeId) (h : Handle) (key : Key) : Change Unit := do
  let w ← get
  match w.currentReader rt with
  | none => return
  | some n =>
    note (.tracked n h key)
    if (key, n) ∈ w.readers h then return
    modify fun w =>
      (w.modifyReaders h (·.add key n)).modifySources n (· ++ [(h, key)])

def noteRead (rt : RuntimeId) (read : Read) (result : Result) : Change Unit := do
  match (← get).currentReader rt with
  | none => return
  | some n => note (.saw n read result)

def clearSources (n : NodeId) : Change Unit := do
  note (.cleared n)
  modify fun w =>
    let sources := w.sources n
    sources.foldl (fun w (h, key) => w.modifyReaders h (·.remove key n))
      (w.modifySources n fun _ => [])

def takeReaders (h : Handle) (key : Key) : Change (List NodeId) := do
  let w ← get
  set (w.modifyReaders h (·.clear key))
  return (w.readers h).on key

end Reactivity
