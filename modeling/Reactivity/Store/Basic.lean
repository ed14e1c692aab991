import Reactivity.Graph.Effect
import Reactivity.State.Writing

namespace Reactivity

def adoptStore (k : Kernel) (state : ObjectId) : Act StoreId := do
  let w ← get
  let rt := (w.object state).runtime
  let id := w.stores.size
  set { w with stores := w.stores.push { runtime := rt, state := state, watcher := w.nodes.size } }
  let _ ← createEffect k rt (.watchStore id false)
  return id

def createStore (k : Kernel) (rt : RuntimeId) (content : Json) :
    Act (Except StateError StoreId) := do
  match content with
  | .object _ =>
    match ← wrap rt content with
    | .object state => return .ok (← adoptStore k state)
    | _ => return .error .notAnObject
  | _ => return .error .notAnObject

/-- Writes the members of a plain object to the properties of the same names. -/
def assignMembers (k : Kernel) (state : ObjectId) (members : List (String × Json)) : Act Unit :=
  members.forM fun (name, j) => do
    let v ← wrap ((← get).object state).runtime j
    state.set k name v

/-- Replaces the state: properties that are not in the next content are removed, and the rest is
assigned. Containers inside are replaced, not merged. -/
def setStore (k : Kernel) (id : StoreId) (next : Json) : Act (Except StateError Unit) := do
  match next with
  | .object members =>
    let s := (← get).store id
    let names ← untracked s.runtime s.state.keys
    let stale := names.filter fun name => !members.any (·.1 == name)
    stale.forM fun name => do
      let _ ← s.state.remove k name
    assignMembers k s.state members
    return .ok ()
  | _ => return .error .notAnObject

def updateStore (k : Kernel) (id : StoreId) (patch : Value → Act Json) :
    Act (Except StateError Unit) := do
  let s := (← get).store id
  match ← untracked s.runtime (patch (.object s.state)) with
  | .object members =>
    assignMembers k s.state members
    return .ok ()
  | _ => return .error .notAnObject

/-- Subscribes to a store. The callback is called on the state at once. -/
def subscribe (k : Kernel) (id : StoreId) (callback : Closure) : Act SubscriptionId := do
  let w ← get
  let s := w.store id
  let sub := w.subscriptions.size
  set { w with
    subscriptions :=
      w.subscriptions.push { store := id, number := s.subscribed, callback := callback } }
  modify (·.modifyStore id fun s =>
    { s with subscribers := s.subscribers ++ [sub], subscribed := s.subscribed + 1 })
  note (.subscribed sub)
  untracked s.runtime (deliver k id sub)
  return sub

def unsubscribe (sub : SubscriptionId) : Change Unit := do
  let s := (← get).subscription sub
  if !s.active then return
  modify (·.modifySubscription sub fun s => { s with active := false })
  if ((← get).store s.store).isAlive then
    modify (·.modifyStore s.store fun s => { s with subscribers := s.subscribers.erase sub })
  note (.unsubscribed sub)

end Reactivity
