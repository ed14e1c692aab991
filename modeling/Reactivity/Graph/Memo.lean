import Reactivity.Graph.Trigger

namespace Reactivity

def createMemo (rt : RuntimeId) (body : Closure) : Change NodeId := do
  let w ← get
  set { w with nodes := w.nodes.push (.memo { runtime := rt, body := body }) }
  return w.nodes.size

/-- Computes the result of a memo anew. It counts as clean from the start, so that a write during
the computation makes it dirty again. -/
def computeMemo (k : Kernel) (n : NodeId) (m : Memo) : Act Result := do
  clearSources n
  modify (·.modifyMemo n fun m => { m with dirty := false })
  let result ← inContext m.runtime (some n) do
    note (.started n)
    k.call m.body []
  note (.finished n)
  modify (·.modifyMemo n fun m =>
    { m with computeCount := m.computeCount + 1, result := some result })
  return result

/-- The result of a memo, tracked: the one that was kept if the memo is clean. -/
def readMemo (k : Kernel) (n : NodeId) : Act Result := do
  match (← get).memo? n with
  | none => return .nothing
  | some m =>
    track m.runtime (.memo n) .value
    let result ←
      match m.dirty, m.result with
      | false, some result => do
        note (.recalled n)
        pure result
      | _, _ => computeMemo k n m
    noteRead m.runtime (.memo n) result
    note (.got n result)
    k.observe
    return result

def dirtyMemo (k : Kernel) (n : NodeId) : Act Unit := do
  match (← get).memo? n with
  | none => return
  | some m =>
    note (.dirtied n)
    notifyNode k m.runtime n

end Reactivity
