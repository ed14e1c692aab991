import Reactivity.Event
import Reactivity.Graph.Readers
import Reactivity.State.Properties

/-!
The whole state of a running program: runtimes, containers, the nodes of the dependency graph,
stores, and the program's own variables and log. An action changes it and may be interrupted; what
it has changed up to then stays.
-/

namespace Reactivity

/-- A runtime. -/
structure Runtime where
  settings : Settings
  hook : Hook
  /-- The computations that are running, innermost first; `none` masks those further out. Reads
  are attributed to the innermost one. -/
  context : List (Option NodeId) := []
  /-- The effects that wait for a flush. -/
  queue : List NodeId := []
  flushing : Bool := false
  /-- Whether the hook has been asked for a flush that has not started. -/
  flushRequested : Bool := false
  deriving Inhabited

/-- A reactive object. -/
structure ObjectState where
  runtime : RuntimeId
  properties : Properties
  readers : Readers := []
  deriving Inhabited

/-- A reactive array. -/
structure ArrayState where
  runtime : RuntimeId
  cells : List Cell
  readers : Readers := []
  deriving Inhabited

/-- What an effect does each time it runs. -/
inductive Job
  | body (body : Closure)
  /-- Calls back when the result of the getter is another one than `last`. The first result is
  only kept, unless the watch is immediate. -/
  | watch (getter callback : Closure) (immediate : Bool) (fresh : Bool) (last : Option Result)
  /-- Reads all of a store's state, and notifies its subscribers on every run but the first. -/
  | watchStore (store : StoreId) (primed : Bool)
  deriving Inhabited

/-- A computation that runs again when something it has read changes. -/
structure Effect where
  runtime : RuntimeId
  job : Job
  /-- What it has read since it last started, as far as it was registered for it. -/
  sources : List (Handle × Key) := []
  disposed : Bool := false
  cleanups : List Closure := []
  runCount : Nat := 0
  /-- Whether it is running at the moment. -/
  running : Bool := false
  deriving Inhabited

/-- A computation whose result is kept until something it has read changes. -/
structure Memo where
  runtime : RuntimeId
  body : Closure
  result : Option Result := none
  dirty : Bool := true
  sources : List (Handle × Key) := []
  readers : Readers := []
  computeCount : Nat := 0
  deriving Inhabited

/-- A node of the dependency graph. -/
inductive Node
  | effect (e : Effect)
  | memo (m : Memo)
  deriving Inhabited

/-- A reactive object with subscribers that are called when anything in it has changed. -/
structure Store where
  runtime : RuntimeId
  state : ObjectId
  /-- The effect that notices changes. -/
  watcher : NodeId
  /-- The active subscriptions, in the order in which they were made. -/
  subscribers : List SubscriptionId := []
  /-- Number of subscriptions ever made. -/
  subscribed : Nat := 0
  notifying : Bool := false
  /-- Whether a notification was asked for during the one that is running. -/
  pending : Bool := false
  /-- How many variables and running operations hold the store. It lives while there are any. -/
  holders : Nat := 1
  deriving Inhabited

/-- A subscription to a store. -/
structure Subscription where
  store : StoreId
  /-- How many subscriptions to the store were made before. -/
  number : Nat
  callback : Closure
  active : Bool := true
  /-- Whether the callback is running at the moment. -/
  running : Bool := false
  deriving Inhabited

/-- What a variable is bound to. -/
inductive Binding
  | result (r : Result)
  | store (id : StoreId)
  | subscription (id : SubscriptionId)
  deriving Inhabited

/-- The state of a running program. -/
structure World where
  runtimes : Array Runtime := #[]
  objects : Array ObjectState := #[]
  arrays : Array ArrayState := #[]
  externals : Array String := #[]
  nodes : Array Node := #[]
  stores : Array Store := #[]
  subscriptions : Array Subscription := #[]
  bindings : List (String × Binding) := []
  /-- What was logged, newest first. -/
  log : List Result := []
  /-- The runtimes whose flush waits for the next turn. -/
  tasks : List RuntimeId := []
  /-- What has happened, newest first. -/
  history : List Event := []
  deriving Inhabited

/-- Why an action ends without a result. -/
inductive Interrupt
  | thrown (message : String)
  /-- Bodies were nested too deeply. -/
  | exhausted
  /-- Whoever observes the program has stopped it. -/
  | stopped
  deriving DecidableEq, Repr

abbrev Change := StateM World

abbrev Act := ExceptT Interrupt (StateM World)

def Act.ensuring (act : Act α) (after : Change Unit) : Act α :=
  ExceptT.mk do
    let outcome ← act.run
    after
    return outcome

namespace World

def runtime (w : World) (id : RuntimeId) : Runtime :=
  w.runtimes[id]?.getD default

def object (w : World) (id : ObjectId) : ObjectState :=
  w.objects[id]?.getD default

def array (w : World) (id : ArrayId) : ArrayState :=
  w.arrays[id]?.getD default

def store (w : World) (id : StoreId) : Store :=
  w.stores[id]?.getD default

def subscription (w : World) (id : SubscriptionId) : Subscription :=
  w.subscriptions[id]?.getD default

def modifyRuntime (w : World) (id : RuntimeId) (f : Runtime → Runtime) : World :=
  { w with runtimes := w.runtimes.modify id f }

def modifyObject (w : World) (id : ObjectId) (f : ObjectState → ObjectState) : World :=
  { w with objects := w.objects.modify id f }

def modifyArray (w : World) (id : ArrayId) (f : ArrayState → ArrayState) : World :=
  { w with arrays := w.arrays.modify id f }

def modifyStore (w : World) (id : StoreId) (f : Store → Store) : World :=
  { w with stores := w.stores.modify id f }

def modifySubscription (w : World) (id : SubscriptionId) (f : Subscription → Subscription) :
    World :=
  { w with subscriptions := w.subscriptions.modify id f }

theorem runtime_modifyRuntime (w : World) (i j : RuntimeId) (f : Runtime → Runtime) :
    (w.modifyRuntime i f).runtime j =
      if i = j ∧ j < w.runtimes.size then f (w.runtime j) else w.runtime j := by
  simp only [runtime, modifyRuntime, Array.getElem?_modify]
  grind

theorem object_modifyObject (w : World) (i j : ObjectId) (f : ObjectState → ObjectState) :
    (w.modifyObject i f).object j =
      if i = j ∧ j < w.objects.size then f (w.object j) else w.object j := by
  simp only [object, modifyObject, Array.getElem?_modify]
  grind

theorem array_modifyArray (w : World) (i j : ArrayId) (f : ArrayState → ArrayState) :
    (w.modifyArray i f).array j =
      if i = j ∧ j < w.arrays.size then f (w.array j) else w.array j := by
  simp only [array, modifyArray, Array.getElem?_modify]
  grind

theorem store_modifyStore (w : World) (i j : StoreId) (f : Store → Store) :
    (w.modifyStore i f).store j =
      if i = j ∧ j < w.stores.size then f (w.store j) else w.store j := by
  simp only [store, modifyStore, Array.getElem?_modify]
  grind

theorem subscription_modifySubscription (w : World) (i j : SubscriptionId)
    (f : Subscription → Subscription) :
    (w.modifySubscription i f).subscription j =
      if i = j ∧ j < w.subscriptions.size then f (w.subscription j) else w.subscription j := by
  simp only [subscription, modifySubscription, Array.getElem?_modify]
  grind

def effect? (w : World) (id : NodeId) : Option Effect :=
  match w.nodes[id]? with
  | some (.effect e) => some e
  | _ => none

def memo? (w : World) (id : NodeId) : Option Memo :=
  match w.nodes[id]? with
  | some (.memo m) => some m
  | _ => none

def modifyEffect (w : World) (id : NodeId) (f : Effect → Effect) : World :=
  { w with
    nodes := w.nodes.modify id fun
      | .effect e => .effect (f e)
      | n => n }

def modifyMemo (w : World) (id : NodeId) (f : Memo → Memo) : World :=
  { w with
    nodes := w.nodes.modify id fun
      | .memo m => .memo (f m)
      | n => n }

theorem effect?_modifyEffect (w : World) (m n : NodeId) (f : Effect → Effect) :
    (w.modifyEffect m f).effect? n = if m = n then (w.effect? n).map f else w.effect? n := by
  simp only [effect?, modifyEffect, Array.getElem?_modify]
  grind

theorem memo?_modifyMemo (w : World) (m n : NodeId) (f : Memo → Memo) :
    (w.modifyMemo m f).memo? n = if m = n then (w.memo? n).map f else w.memo? n := by
  simp only [memo?, modifyMemo, Array.getElem?_modify]
  grind

theorem memo?_modifyEffect (w : World) (m n : NodeId) (f : Effect → Effect) :
    (w.modifyEffect m f).memo? n = w.memo? n := by
  simp only [memo?, modifyEffect, Array.getElem?_modify]
  grind

theorem effect?_modifyMemo (w : World) (m n : NodeId) (f : Memo → Memo) :
    (w.modifyMemo m f).effect? n = w.effect? n := by
  simp only [effect?, modifyMemo, Array.getElem?_modify]
  grind

def isDisposed (w : World) (id : NodeId) : Bool :=
  (w.effect? id).any (·.disposed)

def readers (w : World) : Handle → Readers
  | .object id => (w.object id).readers
  | .array id => (w.array id).readers
  | .memo id => (w.memo? id).elim [] (·.readers)

def modifyReaders (w : World) (h : Handle) (f : Readers → Readers) : World :=
  match h with
  | .object id => w.modifyObject id fun o => { o with readers := f o.readers }
  | .array id => w.modifyArray id fun a => { a with readers := f a.readers }
  | .memo id => w.modifyMemo id fun m => { m with readers := f m.readers }

def sources (w : World) (id : NodeId) : List (Handle × Key) :=
  match w.nodes[id]? with
  | some (.effect e) => e.sources
  | some (.memo m) => m.sources
  | none => []

def modifySources (w : World) (id : NodeId) (f : List (Handle × Key) → List (Handle × Key)) :
    World :=
  { w with
    nodes := w.nodes.modify id fun
      | .effect e => .effect { e with sources := f e.sources }
      | .memo m => .memo { m with sources := f m.sources } }

def note (w : World) (e : Event) : World :=
  { w with history := e :: w.history }

def currentReader (w : World) (rt : RuntimeId) : Option NodeId :=
  (w.runtime rt).context.head?.join

end World

def note (e : Event) : Change Unit :=
  modify (·.note e)

def logResult (r : Result) : Change Unit :=
  modify fun w => { w with log := r :: w.log }

/-- Acts with a computation, or none, as the innermost one of a runtime. -/
def inContext (rt : RuntimeId) (reader : Option NodeId) (act : Act α) : Act α := do
  modify (·.modifyRuntime rt fun r => { r with context := reader :: r.context })
  act.ensuring (modify (·.modifyRuntime rt fun r => { r with context := r.context.tail }))

def untracked (rt : RuntimeId) (act : Act α) : Act α :=
  inContext rt none act

end Reactivity
