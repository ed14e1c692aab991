import Reactivity.Store.Delivery

namespace Reactivity

/-- Runs the cleanups of an effect, untracked and in the order in which they were added. -/
def cleanUp (k : Kernel) (n : NodeId) : Act Unit := do
  match (← get).effect? n with
  | none => return
  | some e =>
    modify (·.modifyEffect n fun e => { e with cleanups := [] })
    if !e.cleanups.isEmpty then
      untracked e.runtime <|
        e.cleanups.forM fun cleanup => do
          note (.cleanupStarted n cleanup)
          let _ ← k.call cleanup []
          note (.cleanupReturned n cleanup)
    note (.cleanedUp n)

/-- Adds a cleanup to the computation that is running, if that is an effect that has not been
disposed of. -/
def registerCleanup (rt : RuntimeId) (cleanup : Closure) : Change Bool := do
  let w ← get
  match w.currentReader rt with
  | none => return false
  | some n =>
    match w.effect? n with
    | none => return false
    | some e =>
      if e.disposed then return false
      note (.cleanupAdded n cleanup)
      modify (·.modifyEffect n fun e => { e with cleanups := e.cleanups ++ [cleanup] })
      return true

def callWatch (k : Kernel) (n : NodeId) (rt : RuntimeId) (callback : Closure) (new : Result)
    (old : Option Result) : Act Unit := do
  note (.watchCalled n new old)
  untracked rt do
    let _ ← k.call callback [new, old.getD .nothing]
  note (.watchReturned n)

def runJob (k : Kernel) (n : NodeId) (rt : RuntimeId) : Job → Act Unit
  | .body body => do
    let _ ← k.call body []
  | .watch getter callback immediate fresh last => do
    let next ← k.call getter []
    note (.watchGot n next)
    let keep (last : Option Result) : Change Unit :=
      modify (·.modifyEffect n fun e =>
        { e with job := .watch getter callback immediate false last })
    if fresh then
      keep none
      if immediate then callWatch k n rt callback next none
      keep (some next)
    else
      match last with
      | none =>
        keep (some next)
        if immediate then callWatch k n rt callback next none
      | some old =>
        if old.same next then return
        keep (some next)
        callWatch k n rt callback next (some old)
  | .watchStore store primed => do
    let _ ← serialize (.object ((← get).store store).state)
    if !primed then
      modify (·.modifyEffect n fun e => { e with job := .watchStore store true })
    else if ((← get).store store).isAlive then holding store (notifyStore k store)

/-- Runs an effect for a runtime: its cleanups first, then its function, which is tracked anew. An
effect that is running already further out is left to that run. -/
def runEffect (k : Kernel) (rt : RuntimeId) (n : NodeId) : Act Unit := do
  if (← get).isDisposed n then return
  cleanUp k n
  clearSources n
  inContext rt (some n) do
    match (← get).effect? n with
    | none => return
    | some e =>
      if e.running then return
      modify (·.modifyEffect n fun e => { e with running := true })
      note (.started n)
      (runJob k n e.runtime e.job).ensuring
        (modify (·.modifyEffect n fun e => { e with running := false }))
      note (.finished n)
      modify (·.modifyEffect n fun e => { e with runCount := e.runCount + 1 })

def createEffect (k : Kernel) (rt : RuntimeId) (job : Job) : Act NodeId := do
  let w ← get
  let n := w.nodes.size
  set { w with nodes := w.nodes.push (.effect { runtime := rt, job := job }) }
  runEffect k rt n
  return n

/-- Stops an effect for good. It is taken from everything it is registered on, and its cleanups
run. -/
def dispose (k : Kernel) (n : NodeId) : Act Unit := do
  match (← get).effect? n with
  | none => return
  | some e =>
    if e.disposed then return
    modify (·.modifyEffect n fun e => { e with disposed := true })
    clearSources n
    cleanUp k n
    note (.disposed n)

end Reactivity
