import Reactivity.Store.Basic

namespace Reactivity

def release : Option Binding → Change Unit
  | some (.store id) => releaseStore id
  | some (.subscription id) => unsubscribe id
  | _ => return

def bind (name : String) (b : Binding) : Change Unit := do
  note (.bound name)
  let w ← get
  set { w with bindings := (name, b) :: w.bindings.filter (·.1 != name) }
  release (w.bindings.lookup name)

def unbind (name : String) : Change Unit := do
  note (.bound name)
  let w ← get
  set { w with bindings := w.bindings.filter (·.1 != name) }
  release (w.bindings.lookup name)

namespace World

def lookup (w : World) (name : String) : Result :=
  match w.bindings.lookup name with
  | some (.result r) => r
  | _ => .nothing

def storeNamed? (w : World) (name : String) : Option StoreId :=
  match w.bindings.lookup name with
  | some (.store id) => some id
  | _ => none

def subscriptionNamed? (w : World) (name : String) : Option SubscriptionId :=
  match w.bindings.lookup name with
  | some (.subscription id) => some id
  | _ => none

end World

end Reactivity
