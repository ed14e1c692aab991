import Reactivity.Graph.Effect

namespace Reactivity

/-- Runs the effects of one round, without those that have been disposed of before their turn, and
returns how many were run. -/
def runBatch (k : Kernel) (rt : RuntimeId) : List NodeId → Act Nat
  | [] => return 0
  | n :: batch => do
    if (← get).isDisposed n then runBatch k rt batch
    else
      note (.turnBegan rt n)
      runEffect k rt n
      note (.turnEnded rt n)
      return (← runBatch k rt batch) + 1

/-- Runs rounds until nothing is queued, or until no more rounds may be run; then what is queued
is dropped. -/
def runRounds (k : Kernel) (rt : RuntimeId) (cap : Nat) :
    Nat → FlushReport → Act (Except StateError FlushReport)
  | left, stats => do
    let batch := ((← get).runtime rt).queue
    if batch.isEmpty then return .ok stats
    modify (·.modifyRuntime rt fun r => { r with queue := [] })
    match left with
    | 0 =>
      note (.gaveUp rt)
      return .error (.cycleDetected stats.rounds cap)
    | left + 1 =>
      note (.roundBegan rt batch)
      let count ← runBatch k rt batch
      runRounds k rt cap left ⟨stats.rounds + 1, stats.effectsRun + count⟩

/-- Runs the queued effects of a runtime, and those queued by them. While a flush is running, a
further one does nothing. -/
def flush (k : Kernel) (rt : RuntimeId) : Act (Except StateError FlushReport) := do
  let r := (← get).runtime rt
  if r.flushing then return .ok ⟨0, 0⟩
  note (.flushBegan rt)
  modify (·.modifyRuntime rt fun r => { r with flushing := true, flushRequested := false })
  let cap := r.settings.flushCap
  let outcome ← (runRounds k rt cap cap ⟨0, 0⟩).ensuring do
    modify (·.modifyRuntime rt fun r => { r with flushing := false })
    note (.flushEnded rt)
  k.observe
  return outcome

end Reactivity
