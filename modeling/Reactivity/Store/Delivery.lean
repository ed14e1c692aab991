import Reactivity.Graph.Trigger
import Reactivity.State.Reading

namespace Reactivity

/-- Disposes of an effect that has no cleanups, as a store's watcher has none. -/
def retire (n : NodeId) : Change Unit := do
  if (← get).isDisposed n then return
  modify (·.modifyEffect n fun e => { e with disposed := true })
  clearSources n
  note (.disposed n)

def Store.isAlive (s : Store) : Bool :=
  s.holders != 0

def holdStore (id : StoreId) : Change Unit :=
  modify (·.modifyStore id fun s => { s with holders := s.holders + 1 })

def releaseStore (id : StoreId) : Change Unit := do
  modify (·.modifyStore id fun s => { s with holders := s.holders - 1 })
  let s := (← get).store id
  if !s.isAlive then retire s.watcher

def holding (id : StoreId) (act : Act α) : Act α := do
  holdStore id
  act.ensuring (releaseStore id)

/-- Calls a subscriber on the state, unless its callback is running further out. -/
def deliver (k : Kernel) (id : StoreId) (sub : SubscriptionId) : Act Unit := do
  let w ← get
  let s := w.subscription sub
  if s.running then
    note (.skipped sub)
    return
  let state := Value.object (w.store id).state
  note (.delivered sub (w.toJson state))
  modify (·.modifySubscription sub fun s => { s with running := true })
  let call : Act Unit := do
    let _ ← k.call s.callback [.value state]
  call.ensuring do
    modify (·.modifySubscription sub fun s => { s with running := false })
    note (.returned sub)

def schedule (k : Kernel) (n : NodeId) : Act Unit := do
  match (← get).effect? n with
  | some e =>
    if e.disposed then return
    note (.scheduled n)
    enqueue k e.runtime n
  | none => return

/-- Calls the subscribers of a store that were there when the pass began, except those that have
been cancelled in the meantime. -/
def notifyStore (k : Kernel) (id : StoreId) : Act Unit := do
  let s := (← get).store id
  if s.notifying then
    note (.passPostponed id)
    modify (·.modifyStore id fun s => { s with pending := true })
  else
    note (.passBegan id)
    modify (·.modifyStore id fun s => { s with notifying := true })
    let pass : Act Unit := untracked s.runtime <|
      s.subscribers.forM fun sub => do
        if ((← get).subscription sub).active then deliver k id sub
    pass.ensuring do
      modify (·.modifyStore id fun s => { s with notifying := false })
      note (.passEnded id)
    if ((← get).store id).pending then
      modify (·.modifyStore id fun s => { s with pending := false })
      schedule k s.watcher

/-- Notifies the subscribers of a store because the program asks for it, and not because the watcher
has noticed a change. -/
def requestPass (k : Kernel) (id : StoreId) : Act Unit := do
  note (.passAsked id)
  notifyStore k id

end Reactivity
