import Reactivity.Graph.Tracking

/-!
What a change does to the computations that have read what was changed. Effects are queued; memos
become dirty and pass the trigger on. The first effect queued after a flush has started asks the
runtime's hook for the next one.
-/

namespace Reactivity

/-- The operations through which one step leads to any other: a program's own bodies, flushes asked
for by a hook, and triggers passed on by memos. Every operation of the library is given them for
one level of nesting less than its own. -/
structure Kernel where
  /-- Looks at the state before each expression is evaluated, after each read of a memo and after
  each flush, and may stop the program. In a plain run nobody looks. -/
  observe : Act Unit
  /-- Evaluates a body on arguments. -/
  call : Closure → List Result → Act Result
  /-- Runs the queued effects of a runtime, whatever comes of it. -/
  flushNow : RuntimeId → Act Unit
  /-- Notifies what is registered on a part of a thing, on behalf of a runtime. -/
  passOn : RuntimeId → Handle → Key → Act Unit

def requestFlush (k : Kernel) (rt : RuntimeId) : Act Unit := do
  note (.requested rt)
  match ((← get).runtime rt).hook with
  | .manual => return
  | .log => logResult (.ofString "request_flush")
  | .flush =>
    logResult (.ofString "request_flush")
    k.flushNow rt
  | .task => modify fun w => { w with tasks := w.tasks ++ [rt] }

def enqueue (k : Kernel) (rt : RuntimeId) (n : NodeId) : Act Unit := do
  let r := (← get).runtime rt
  if n ∈ r.queue then return
  note (.queued rt n)
  modify (·.modifyRuntime rt fun r => { r with queue := r.queue ++ [n] })
  if r.flushing || r.flushRequested then return
  modify (·.modifyRuntime rt fun r => { r with flushRequested := true })
  requestFlush k rt

/-- Tells a computation that something it has read has changed. A memo that is dirty already does
not pass it on: whoever read it has been told. -/
def notifyNode (k : Kernel) (rt : RuntimeId) (n : NodeId) : Act Unit := do
  match (← get).nodes[n]? with
  | some (.effect _) => enqueue k rt n
  | some (.memo m) =>
    modify (·.modifyMemo n fun m => { m with dirty := true })
    if !m.dirty then k.passOn rt (.memo n) .value
  | none => return

/-- Tells everything registered on a part of a thing that it has changed. The registrations are
used up by it. -/
def trigger (k : Kernel) (rt : RuntimeId) (h : Handle) (key : Key) : Act Unit := do
  note (.triggered h key)
  let nodes ← takeReaders h key
  nodes.forM fun n => do
    if !(← get).isDisposed n then notifyNode k rt n

end Reactivity
