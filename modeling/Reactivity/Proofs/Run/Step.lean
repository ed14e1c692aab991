import Reactivity.Proofs.Run.Pure
import Reactivity.Proofs.Run.Validity
import Mathlib.Data.List.Forall2

/-!
A program as a machine. A configuration is the state together with what the library still has to
do; a step is the smallest change that a program can see from outside.
-/

namespace Reactivity

namespace Read

def handle : Read → Handle
  | .property id _ | .contains id _ | .names id | .entries id => .object id
  | .slot id _ | .values id => .array id
  | .size h => h
  | .memo n => .memo n

def keys (w : World) : Read → List Key
  | .property _ name | .contains _ name => [.property name]
  | .names _ | .size _ => [.shape]
  | .entries id => .shape :: (w.object id).properties.names.map .property
  | .slot _ i => [.index i]
  | .values id => .shape :: (List.range (w.array id).cells.length).map .index
  | .memo _ => [.value]

end Read

/-- What a cell shows to a read, unless it is plain JSON that no read has come to. -/
def Cell.shown? : Option Cell → Option Result
  | none => some .nothing
  | some cell => cell.value?.map .value

def Properties.values? (ps : Properties) : Option (List (String × Value)) :=
  ps.mapM fun (name, cell) => cell.value?.map (name, ·)

/-- The result of a read that has nothing left to prepare or to compute. -/
def Read.shown (w : World) : Read → Option Result
  | .property id name => Cell.shown? ((w.object id).properties.lookup name)
  | .contains id name => some (.ofBool ((w.object id).properties.lookup name).isSome)
  | .names id => some (.list ((w.object id).properties.names.map .ofString))
  | .entries id => (w.object id).properties.values?.map .ofEntries
  | .slot id i => Cell.shown? (w.array id).cells[i]?
  | .values id => ((w.array id).cells.mapM Cell.value?).map fun vs => .list (vs.map .value)
  | .size (.object id) => some (.plain (.int (w.object id).properties.length))
  | .size (.array id) => some (.plain (.int (w.array id).cells.length))
  | .size (.memo _) => none
  | .memo n => (w.memo? n).bind fun m => if m.dirty then none else m.result

/-- What stands in a part of a container. It is nothing if no read has come to it. -/
def World.found (w : World) (target key : Result) : Result :=
  match target, key with
  | .value (.object id), .value (.string name) =>
    .ofValue? (((w.object id).properties.lookup name).bind Cell.value?)
  | .value (.array id), .value (.number x) =>
    .ofValue? ((w.array id).cells[x.toIndex]?.bind Cell.value?)
  | _, _ => .nothing

/-- What a path from something leads to. It is nothing if not all of it has been read. -/
def World.along (w : World) (target : Result) (path : List Result) : Result :=
  path.foldl w.found target

/-- The events since the function of a node was last started, newest first. -/
def sinceStart (n : NodeId) (history : List Event) : List Event :=
  history.takeWhile fun e =>
    match e with
    | .started m => m != n
    | _ => true

def Value.handle? : Value → Option Handle
  | .object id => some (.object id)
  | .array id => some (.array id)
  | _ => none

/-- The containers that the read of all of a container has shown in it. -/
def Result.containers : Result → List Handle
  | .list items =>
    items.filterMap fun
      | .value v => v.handle?
      | .list [_, .value v] => v.handle?
      | _ => none
  | _ => []

def Handle.whole : Handle → Read
  | .object id => .entries id
  | .array id => .values id
  | .memo n => .memo n

/-- `Traced n since root h`: among the events are reads by the node of all of one container after
the other, from the first one down to the second. -/
inductive Traced (n : NodeId) (since : List Event) (root : Handle) : Handle → Prop
  | root : Traced n since root root
  | inside {h h' : Handle} {r : Result} (outer : Traced n since root h)
    (saw : .saw n h.whole r ∈ since) (inner : h' ∈ r.containers) : Traced n since root h'

/-- `w.SeenThrough n s`: since its function was last started, the node has read the state of the
store and all that it has found in there, and nothing else. A container of another runtime is not
tracked, and hides what it holds. -/
structure World.SeenThrough (w : World) (n : NodeId) (s : Store) : Prop where
  state : ∃ r, .saw n (Handle.object s.state).whole r ∈ sinceStart n w.history
  inner : ∀ (h : Handle) r, .saw n h.whole r ∈ sinceStart n w.history → ∀ h' ∈ r.containers,
    w.owner h' = s.runtime → ∃ r', .saw n h'.whole r' ∈ sinceStart n w.history
  only : ∀ (h : Handle) key, .tracked n h key ∈ sinceStart n w.history →
    (∃ r, .saw n h.whole r ∈ sinceStart n w.history) ∧
      (Traced n (sinceStart n w.history) (.object s.state) h ∨
        ∃ h', Traced n (sinceStart n w.history) (.object s.state) h' ∧ w.owner h' ≠ s.runtime)

namespace World

def trackedBy (w : World) (n : NodeId) (h : Handle) (key : Key) : World :=
  let w := w.note (.tracked n h key)
  if (w.readers h).contains (key, n) then w
  else (w.modifyReaders h (·.add key n)).modifySources n (· ++ [(h, key)])

/-- Registers the innermost computation of a runtime, if there is one, on a part of a thing. -/
def trackedIn (w : World) (rt : RuntimeId) (h : Handle) (key : Key) : World :=
  match w.currentReader rt with
  | none => w
  | some n => w.trackedBy n h key

def clearedOf (w : World) (n : NodeId) : World :=
  let w := w.note (.cleared n)
  (w.sources n).foldl (fun w (h, key) => w.modifyReaders h (·.remove key n))
    (w.modifySources n fun _ => [])

def taken (w : World) (h : Handle) (key : Key) : World :=
  (w.note (.triggered h key)).modifyReaders h (·.clear key)

def pushContext (w : World) (rt : RuntimeId) (reader : Option NodeId) : World :=
  w.modifyRuntime rt fun r => { r with context := reader :: r.context }

def popContext (w : World) (rt : RuntimeId) : World :=
  w.modifyRuntime rt fun r => { r with context := r.context.tail }

def requested (w : World) (rt : RuntimeId) : World :=
  let w := (w.modifyRuntime rt fun r => { r with flushRequested := true }).note (.requested rt)
  match (w.runtime rt).hook with
  | .manual => w
  | .log | .flush => { w with log := .ofString "request_flush" :: w.log }
  | .task => { w with tasks := w.tasks ++ [rt] }

def queuedIn (w : World) (rt : RuntimeId) (n : NodeId) : World :=
  let w' := (w.note (.queued rt n)).modifyRuntime rt fun r => { r with queue := r.queue ++ [n] }
  if (w.runtime rt).flushing || (w.runtime rt).flushRequested then w' else w'.requested rt

def madeDirty (w : World) (n : NodeId) : World :=
  w.modifyMemo n fun m => { m with dirty := true }

def computing (w : World) (n : NodeId) (rt : RuntimeId) : World :=
  (((w.clearedOf n).modifyMemo n fun m => { m with dirty := false }).pushContext rt (some n)).note
    (.started n)

def computed (w : World) (n : NodeId) (rt : RuntimeId) (r : Result) : World :=
  ((w.popContext rt).note (.finished n)).modifyMemo n fun m =>
    { m with computeCount := m.computeCount + 1, result := some r }

def gotBy (w : World) (reader : Option NodeId) (n : NodeId) (r : Result) : World :=
  (match reader with
    | none => w
    | some x => w.note (.saw x (.memo n) r)).note (.got n r)

def running (w : World) (n : NodeId) (rt : RuntimeId) : World :=
  (((w.clearedOf n).pushContext rt (some n)).modifyEffect n fun e =>
    { e with running := true }).note (.started n)

def stopped (w : World) (n : NodeId) (rt : RuntimeId) : World :=
  (w.modifyEffect n fun e => { e with running := false }).popContext rt

def ran (w : World) (n : NodeId) (rt : RuntimeId) : World :=
  (((w.modifyEffect n fun e => { e with running := false }).note (.finished n)).modifyEffect n
    fun e => { e with runCount := e.runCount + 1 }).popContext rt

/-- Marks an effect as disposed of, and takes it from everything it is registered on. -/
def disposing (w : World) (n : NodeId) : World :=
  (w.modifyEffect n fun e => { e with disposed := true }).clearedOf n

def pushNode (w : World) (node : Node) : World :=
  { w with nodes := w.nodes.push node }

def withStore (w : World) (state : ObjectId) : World :=
  { w with
    stores := w.stores.push
      { runtime := (w.object state).runtime, state := state, watcher := w.nodes.size } }.pushNode
    (.effect { runtime := (w.object state).runtime, job := .watchStore w.stores.size false })

/-- Starts a pass of calls to the subscribers of a store. Reads are attributed to nobody. -/
def passBegun (w : World) (id : StoreId) : World :=
  ((w.note (.passBegan id)).modifyStore id fun s => { s with notifying := true }).pushContext
    (w.store id).runtime none

def passEnded (w : World) (id : StoreId) (rt : RuntimeId) : World :=
  ((w.popContext rt).modifyStore id fun s => { s with notifying := false }).note (.passEnded id)

def passPostponed (w : World) (id : StoreId) : World :=
  (w.note (.passPostponed id)).modifyStore id fun s => { s with pending := true }

def callBegun (w : World) (sub : SubscriptionId) (j : Json) : World :=
  (w.note (.delivered sub j)).modifySubscription sub fun s => { s with running := true }

def callEnded (w : World) (sub : SubscriptionId) : World :=
  (w.modifySubscription sub fun s => { s with running := false }).note (.returned sub)

/-- Takes the cleanups from an effect, and attributes reads in its runtime to nobody. -/
def cleaning (w : World) (n : NodeId) (rt : RuntimeId) : World :=
  (w.modifyEffect n fun e => { e with cleanups := [] }).pushContext rt none

def withSubscription (w : World) (id : StoreId) (callback : Closure) : World :=
  ({ w with
    subscriptions := w.subscriptions.push
      { store := id, number := (w.store id).subscribed, callback := callback } }.modifyStore id
    fun s =>
      { s with
        subscribers := s.subscribers ++ [w.subscriptions.size], subscribed := s.subscribed + 1 }).note
    (.subscribed w.subscriptions.size)

/-- Cancels a subscription. A store that nobody holds keeps it in its list. -/
def cancelled (w : World) (sub : SubscriptionId) : World :=
  let w' := w.modifySubscription sub fun s => { s with active := false }
  (if (w'.store (w.subscription sub).store).isAlive then
    w'.modifyStore (w.subscription sub).store fun s => { s with subscribers := s.subscribers.erase sub }
  else w').note (.unsubscribed sub)

end World

/-- What a watch still has to do with a result of its getter. -/
inductive Duty
  /-- Something is kept for the next run. -/
  | keep (job : Job)
  /-- The callback is called with the result and the one before. -/
  | call (new : Result) (old : Option Result)

def Job.duties (next : Result) : Job → List Duty
  | .watch getter callback immediate fresh last =>
    let keep (last : Option Result) : Duty := .keep (.watch getter callback immediate false last)
    let first : List Duty := if immediate then [.call next none] else []
    match fresh, last with
    | true, _ => keep none :: first ++ [keep (some next)]
    | false, none => keep (some next) :: first
    | false, some old => if old.same next then [] else [keep (some next), .call next (some old)]
  | _ => []

def Job.isNew : Job → Prop
  | .watch _ _ _ fresh last => fresh = true ∧ last = none
  | _ => True

/-- How far the calls of the cleanups of an effect, or a run of a watch, have come. -/
inductive Stage
  /-- The cleanups that are left are called next. Reads in the runtime are attributed to nobody. -/
  | cleaning (n : NodeId) (rt : RuntimeId) (left : List Closure)
  /-- A cleanup is being called, and others are left. -/
  | cleanup (n : NodeId) (rt : RuntimeId) (c : Closure) (left : List Closure)
  /-- The getter of a watch is being called. -/
  | getting (n : NodeId) (job : Job)
  /-- The getter has given a result. -/
  | reporting (n : NodeId) (duties : List Duty)
  /-- The callback is being called, and other things are still to be done. -/
  | calling (n : NodeId) (new : Result) (old : Option Result) (duties : List Duty)

namespace Stage

def node : Stage → NodeId
  | .cleaning n .. | .cleanup n .. | .getting n _ | .reporting n _ | .calling n .. => n

def mask? : Stage → Option RuntimeId
  | .cleaning _ rt _ | .cleanup _ rt .. => some rt
  | _ => none

def isCode : Stage → Bool
  | .cleanup .. | .getting .. | .calling .. => true
  | _ => false

/-- `Advance s e s'`: the event is what leads from one stage to the next. -/
inductive Advance : Stage → Event → Stage → Prop
  | clean {n : NodeId} {rt : RuntimeId} {c : Closure} {left : List Closure} :
    Advance (.cleaning n rt (c :: left)) (.cleanupStarted n c) (.cleanup n rt c left)
  | cleaned {n : NodeId} {rt : RuntimeId} {c : Closure} {left : List Closure} :
    Advance (.cleanup n rt c left) (.cleanupReturned n c) (.cleaning n rt left)
  | got {n : NodeId} {job : Job} {r : Result} :
    Advance (.getting n job) (.watchGot n r) (.reporting n (job.duties r))
  | call {n : NodeId} {new : Result} {old : Option Result} {duties : List Duty} :
    Advance (.reporting n (.call new old :: duties)) (.watchCalled n new old)
      (.calling n new old duties)
  | called {n : NodeId} {new : Result} {old : Option Result} {duties : List Duty} :
    Advance (.calling n new old duties) (.watchReturned n) (.reporting n duties)

end Stage

/-- What the library still has to do, or is in the middle of. -/
inductive Frame
  /-- The parts of a thing that have changed are still to be triggered. -/
  | writing (rt : RuntimeId) (h : Handle) (keys : List Key)
  /-- Nodes that are still to be told that something they have read has changed. -/
  | telling (rt : RuntimeId) (nodes : List NodeId)
  /-- An effect whose turn has come and that is to be run. -/
  | pending (n : NodeId)
  /-- An effect that has been made and is to be run for the first time. -/
  | created (n : NodeId)
  /-- The function of an effect is running. -/
  | running (n : NodeId) (rt : RuntimeId)
  /-- The function of a memo is running. It was started at the end of the given history. -/
  | computing (n : NodeId) (rt : RuntimeId) (start : List Event)
  /-- A memo is being read by a node, or by none. -/
  | reading (reader : Option NodeId) (n : NodeId)
  /-- The change of an array as a whole is being computed from its values. -/
  | changing (id : ArrayId) (before : List Value)
  /-- Reads are attributed to nobody. -/
  | masked (rt : RuntimeId)
  | flushing (rt : RuntimeId)
  /-- The effects of a round whose turn has not come yet. -/
  | round (rt : RuntimeId) (batch : List NodeId)
  /-- A watcher has read all of the state of its store. -/
  | watched (n : NodeId)
  /-- A watcher has asked for a pass of calls to the subscribers of its store, or need not. -/
  | notified (n : NodeId)
  /-- The cleanups of an effect are being called, or a watch is being run. -/
  | amid (s : Stage)
  /-- Subscribers of a store are still to be called. Reads are attributed to nobody. -/
  | passing (id : StoreId) (rt : RuntimeId) (subs : List SubscriptionId)
  /-- A pass has ended, and one that was put off until then is still to be made up for. -/
  | passed (id : StoreId)
  /-- A subscriber has been added to a store, and is to be called for the first time. -/
  | greeting (id : StoreId) (sub : SubscriptionId)
  /-- The callback of a subscriber is running. -/
  | calling (sub : SubscriptionId)
  /-- What lies further out is not looked at. -/
  | beyond

/-- The state of a program, what the library has still to do, innermost first, and whether an
interrupt is on its way out. -/
structure Config where
  world : World
  stack : List Frame
  unwinding : Bool

/-- Nothing is left to be done at once, so that the program's own code may run. -/
def AtCode : List Frame → Prop
  | .writing .. :: _ => False
  | .telling .. :: _ => False
  | .pending _ :: _ => False
  | .created _ :: _ => False
  | .reading .. :: _ => False
  | .flushing _ :: _ => False
  | .round .. :: _ => False
  | .watched _ :: _ => False
  | .notified _ :: _ => False
  | .passing .. :: _ => False
  | .passed _ :: _ => False
  | .greeting .. :: _ => False
  | .amid s :: _ => s.isCode
  | .beyond :: _ => False
  | _ => True

def AtNotified : List Frame → Prop
  | .notified _ :: _ => True
  | _ => False

/-- The subscribers of a store are being called, and no callback is running at the moment. -/
def AtPassing : List Frame → Prop
  | .passing .. :: _ => True
  | _ => False

/-- A node is being told of a change. A hook that flushes at once runs the program's own code
there. -/
def AtTelling : List Frame → Prop
  | .telling .. :: _ => True
  | _ => False

def TellsFor (rt : RuntimeId) (g : List Frame) : Prop :=
  ∀ rt' nodes s, g = .telling rt' nodes :: s → rt' = rt

/-- The library is not between two calls in the cleanups of an effect or in the run of a watch. -/
def MidCall (g : List Frame) : Prop :=
  ∀ s g', g = .amid s :: g' → s.isCode

theorem AtCode.tellsFor {g : List Frame} (code : AtCode g) (rt : RuntimeId) : TellsFor rt g := by
  rintro rt' nodes s rfl
  exact code.elim

theorem AtCode.midCall {g : List Frame} (code : AtCode g) : MidCall g := by
  rintro s g' rfl
  exact code

theorem AtTelling.midCall {g : List Frame} (telling : AtTelling g) : MidCall g := by
  rintro s g' rfl
  exact telling.elim

/-- A flush that a hook has asked for in the middle of a trigger has just ended. -/
def AfterHook (w : World) (g : List Frame) : Prop :=
  AtTelling g ∧ ∃ rt, (w.runtime rt).hook = .flush ∧ ∃ old, w.history = .flushEnded rt :: old

/-- The innermost computation may do more than to read: it is neither a memo with a pure body nor
the watcher of a store. -/
def Free (w : World) : List Frame → Prop
  | [] => True
  | .running n _ :: _ => w.isWatcher n = false
  | .flushing _ :: _ => True
  | .calling _ :: _ => True
  | .computing n .. :: _ => ∀ m, w.memo? n = some m → m.body.body.isPure = false
  | _ :: g => Free w g

def changedKeys (before after : List Value) : List Key :=
  let changed := changedSlots before after
  changed.map .index ++ if changed.isEmpty then [] else [.shape]

def changedPart (key : Key) (old : Option Cell) (new : Option Value) : List Key :=
  match old, new with
  | some cell, some v => if cell.holds v then [] else [key]
  | none, none => []
  | _, _ => [key, .shape]

namespace Write

def handle : Write → Handle
  | .property id .. => .object id
  | .slot id .. | .items id .. => .array id

/-- The parts of the container whose content is another one after the write. -/
def changed : Write → List Key
  | .property _ name old new => changedPart (.property name) old new
  | .slot _ i old new => changedPart (.index i) old (some new)
  | .items _ before after => changedKeys before after

end Write

/-- `Edit w write w'`: a part of a container is written, and changes by it. -/
inductive Edit (w : World) : Write → World → Prop
  | setProperty {id : ObjectId} {name : String} {v : Value} {cell : Cell} (valid : id < w.objects.size)
      (value : v.Valid w) (there : (w.object id).properties.lookup name = some cell)
      (other : ¬ cell.holds v) :
      Edit w (.property id name (some cell) (some v))
        ((w.note (.wrote (.property id name (some cell) (some v)))).modifyObject id fun o =>
          { o with properties := o.properties.replace name (.value v) })
  | addProperty {id : ObjectId} {name : String} {v : Value} (valid : id < w.objects.size)
      (value : v.Valid w) (absent : (w.object id).properties.lookup name = none) :
      Edit w (.property id name none (some v))
        ((w.note (.wrote (.property id name none (some v)))).modifyObject id fun o =>
          { o with properties := o.properties.add name (.value v) })
  | removeProperty {id : ObjectId} {name : String} {v : Value} (valid : id < w.objects.size)
      (there : (w.object id).properties.lookup name = some (.value v)) :
      Edit w (.property id name (some (.value v)) none)
        ((w.note (.wrote (.property id name (some (.value v)) none))).modifyObject id fun o =>
          { o with properties := o.properties.remove name })
  | setSlot {id : ArrayId} {i : Nat} {v : Value} {cell : Cell} (valid : id < w.arrays.size)
      (value : v.Valid w) (there : (w.array id).cells[i]? = some cell) (other : ¬ cell.holds v) :
      Edit w (.slot id i (some cell) v)
        ((w.note (.wrote (.slot id i (some cell) v))).modifyArray id fun a =>
          { a with cells := a.cells.set i (.value v) })
  | addSlot {id : ArrayId} {v : Value} (valid : id < w.arrays.size) (value : v.Valid w) :
      Edit w (.slot id (w.array id).cells.length none v)
        ((w.note (.wrote (.slot id (w.array id).cells.length none v))).modifyArray id fun a =>
          { a with cells := a.cells ++ [.value v] })

/-- `w.Copies v j`: the value is a container with the content of the JSON, as it was made. -/
def World.Copies (w : World) : Value → Json → Prop
  | .object id, .object members =>
    (w.object id).properties = members.map fun (name, j) => (name, .ofJson j)
  | .array id, .array items => (w.array id).cells = items.map .ofJson
  | _, _ => False

/-- `Cell.Resolved w old new`: plain JSON in a cell has been turned into a reactive container, or
the cell is what it was. -/
def Cell.Resolved (w : World) (old new : Cell) : Prop :=
  new = old ∨ ∃ j v, old = .plain j ∧ new = .value v ∧ w.Copies v j ∧ v.Valid w

/-- `Properties.Resolved w old new`: plain JSON in properties has been turned into reactive
containers. What was read before stays as it is. -/
structure Properties.Resolved (w : World) (old new : Properties) : Prop where
  names : new.names = old.names
  cells : ∀ p ∈ new, p ∈ old ∨
    ∃ j v, (p.1, .plain j) ∈ old ∧ p.2 = .value v ∧ w.Copies v j ∧ v.Valid w
  kept : ∀ name v, old.lookup name = some (.value v) → new.lookup name = some (.value v)
  full : ∀ vs, old.values? = some vs → new = old

/-- Changes that the dependency graph does not notice. -/
inductive Aside (w : World) : World → Prop
  | log (r : Result) : Aside w { w with log := r :: w.log }
  | clearLog : Aside w { w with log := [] }
  | bind (name : String) (b : Binding) (valid : b.Valid w) :
    Aside w { w.note (.bound name) with
      bindings := (name, b) :: w.bindings.filter (·.1 != name) }
  | unbind (name : String) :
    Aside w { w.note (.bound name) with bindings := w.bindings.filter (·.1 != name) }
  | external (content : String) : Aside w { w with externals := w.externals.push content }
  | task (rt : RuntimeId) (tasks : List RuntimeId) (h : w.tasks = rt :: tasks) :
    Aside w { w with tasks := tasks }
  | turnEnded (rt : RuntimeId) (n : NodeId) : Aside w (w.note (.turnEnded rt n))
  | disposed (n : NodeId) : Aside w (w.note (.disposed n))
  /-- An effect has no cleanups. -/
  | cleanedUp (n : NodeId) (none : ∀ e, w.effect? n = some e → e.cleanups = []) :
    Aside w (w.note (.cleanedUp n))
  | skipped (sub : SubscriptionId) : Aside w (w.note (.skipped sub))
  | sighted (target : Result) (path : List Result) :
    Aside w (w.note (.sighted target path (w.along target path)))
  | scheduled (n : NodeId) : Aside w (w.note (.scheduled n))
  /-- A write with what was there already. -/
  | rewrote (write : Write) (same : write.changed = []) : Aside w (w.note (.wrote write))
  | hold (id : StoreId) : Aside w (w.modifyStore id fun s => { s with holders := s.holders + 1 })
  /-- A store is let go of. If it was held by nobody else, its watcher has gone. -/
  | release (id : StoreId)
    (last : (w.store id).holders - 1 = 0 → w.isDisposed (w.store id).watcher) :
    Aside w (w.modifyStore id fun s => { s with holders := s.holders - 1 })
  | cancel (sub : SubscriptionId) (active : (w.subscription sub).active) : Aside w (w.cancelled sub)

def Frame.Droppable : Frame → Prop
  | .writing .. | .telling .. | .pending _ | .created _ | .reading .. | .round .. | .watched _
  | .notified _ | .passed _ | .greeting .. => True
  | .amid s => s.mask? = none
  | _ => False

/-- The steps of a program. -/
inductive Step : Config → Config → Prop
  | aside {w w' : World} {g : List Frame} {u : Bool} (h : Aside w w') : Step ⟨w, g, u⟩ ⟨w', g, u⟩
  -- Reading
  | track {w : World} {g : List Frame} {rt : RuntimeId} {n : NodeId} {h : Handle} {key : Key}
    (code : AtCode g) (valid : h.Valid w) (owner : w.owner h = rt) (container : ∀ m, h ≠ .memo m)
    (reader : w.currentReader rt = some n) : Step ⟨w, g, false⟩ ⟨w.trackedBy n h key, g, false⟩
  | see {w : World} {g : List Frame} {rt : RuntimeId} {n : NodeId} {read : Read} {r : Result}
    (code : AtCode g) (valid : read.handle.Valid w) (owner : w.owner read.handle = rt)
    (reader : w.currentReader rt = some n) (direct : ∀ m, read ≠ .memo m)
    (tracked : ∀ key ∈ read.keys w, .tracked n read.handle key ∈ sinceStart n w.history)
    (shown : read.shown w = some r) : Step ⟨w, g, false⟩ ⟨w.note (.saw n read r), g, false⟩
  | newObject {w : World} {g : List Frame} {rt : RuntimeId} {properties : Properties}
    (code : AtCode g) (valid : rt < w.runtimes.size) (values : ∀ p ∈ properties, p.2.Valid w) :
    Step ⟨w, g, false⟩
      ⟨{ w.note (.wrapped (properties.filterMap (·.2.value?))) with
        objects := w.objects.push { runtime := rt, properties := properties } }, g, false⟩
  | newArray {w : World} {g : List Frame} {rt : RuntimeId} {cells : List Cell} (code : AtCode g)
    (valid : rt < w.runtimes.size) (values : ∀ c ∈ cells, c.Valid w) :
    Step ⟨w, g, false⟩
      ⟨{ w.note (.wrapped (cells.filterMap Cell.value?)) with
        arrays := w.arrays.push { runtime := rt, cells := cells } }, g, false⟩
  | resolveObject {w : World} {g : List Frame} {id : ObjectId} {properties : Properties}
    (code : AtCode g)
    (resolved : Properties.Resolved w (w.object id).properties properties) :
    Step ⟨w, g, false⟩
      ⟨w.modifyObject id fun o => { o with properties := properties }, g, false⟩
  | resolveArray {w : World} {g : List Frame} {id : ArrayId} {cells : List Cell} (code : AtCode g)
    (resolved : List.Forall₂ (Cell.Resolved w) (w.array id).cells cells) :
    Step ⟨w, g, false⟩ ⟨w.modifyArray id fun a => { a with cells := cells }, g, false⟩
  -- Writing
  | write {w w' : World} {g : List Frame} {rt : RuntimeId} {write : Write}
    (code : AtCode g) (free : Free w g) (owner : w.owner write.handle = rt) (edit : Edit w write w') :
    Step ⟨w, g, false⟩ ⟨w', .writing rt write.handle write.changed :: g, false⟩
  | beginChange {w : World} {g : List Frame} {id : ArrayId} {before : List Value}
    (code : AtCode g) (free : Free w g)
    (valid : id < w.arrays.size) (content : (w.array id).cells = before.map .value) :
    Step ⟨w, g, false⟩ ⟨w.note (.changeBegan id), .changing id before :: g, false⟩
  | endChange {w : World} {g : List Frame} {rt : RuntimeId} {id : ArrayId} {before after : List Value}
    (owner : w.owner (.array id) = rt) (values : ∀ v ∈ after, v.Valid w) :
    Step ⟨w, .changing id before :: g, false⟩
      ⟨((w.note (.changeEnded id)).note (.wrote (.items id before after))).modifyArray id fun a =>
        { a with cells := after.map .value },
        .writing rt (.array id) (changedKeys before after) :: g, false⟩
  | abandonChange {w : World} {g : List Frame} {id : ArrayId} {before : List Value} :
    Step ⟨w, .changing id before :: g, true⟩ ⟨w.note (.changeEnded id), g, true⟩
  -- Triggering
  | trigger {w : World} {g : List Frame} {rt : RuntimeId} {h : Handle} {key : Key} {keys : List Key} :
    Step ⟨w, .writing rt h (key :: keys) :: g, false⟩
      ⟨w.taken h key, .telling rt ((w.readers h).on key) :: .writing rt h keys :: g, false⟩
  | written {w : World} {g : List Frame} {rt : RuntimeId} {h : Handle} :
    Step ⟨w, .writing rt h [] :: g, false⟩ ⟨w, g, false⟩
  | told {w : World} {g : List Frame} {rt : RuntimeId} :
    Step ⟨w, .telling rt [] :: g, false⟩ ⟨w, g, false⟩
  | tellDisposed {w : World} {g : List Frame} {rt : RuntimeId} {n : NodeId} {ns : List NodeId}
    (disposed : w.isDisposed n) :
    Step ⟨w, .telling rt (n :: ns) :: g, false⟩ ⟨w, .telling rt ns :: g, false⟩
  | tellQueued {w : World} {g : List Frame} {rt : RuntimeId} {n : NodeId} {ns : List NodeId}
    (effect : (w.effect? n).isSome) (queued : n ∈ (w.runtime rt).queue) :
    Step ⟨w, .telling rt (n :: ns) :: g, false⟩ ⟨w, .telling rt ns :: g, false⟩
  | tellEffect {w : World} {g : List Frame} {rt : RuntimeId} {n : NodeId} {ns : List NodeId}
    (effect : (w.effect? n).isSome) (fresh : n ∉ (w.runtime rt).queue) :
    Step ⟨w, .telling rt (n :: ns) :: g, false⟩ ⟨w.queuedIn rt n, .telling rt ns :: g, false⟩
  | tellDirty {w : World} {g : List Frame} {rt : RuntimeId} {n : NodeId} {ns : List NodeId} {m : Memo}
    (memo : w.memo? n = some m) (dirty : m.dirty) :
    Step ⟨w, .telling rt (n :: ns) :: g, false⟩ ⟨w.madeDirty n, .telling rt ns :: g, false⟩
  | tellClean {w : World} {g : List Frame} {rt : RuntimeId} {n : NodeId} {ns : List NodeId} {m : Memo}
    (memo : w.memo? n = some m) (clean : m.dirty = false) :
    Step ⟨w, .telling rt (n :: ns) :: g, false⟩
      ⟨w.madeDirty n, .writing rt (.memo n) [.value] :: .telling rt ns :: g, false⟩
  | schedule {w : World} {g : List Frame} {n : NodeId} {e : Effect} (code : AtCode g) (free : Free w g)
    (effect : w.effect? n = some e) (live : e.disposed = false) (other : w.isWatcher n = false)
    (fresh : n ∉ (w.runtime e.runtime).queue) :
    Step ⟨w, g, false⟩ ⟨(w.note (.scheduled n)).queuedIn e.runtime n, g, false⟩
  | markDirty {w : World} {g : List Frame} {n : NodeId} {m : Memo} (code : AtCode g)
    (memo : w.memo? n = some m) (dirty : m.dirty) :
    Step ⟨w, g, false⟩ ⟨(w.note (.dirtied n)).madeDirty n, g, false⟩
  | markClean {w : World} {g : List Frame} {n : NodeId} {m : Memo} (code : AtCode g) (free : Free w g)
    (memo : w.memo? n = some m) (clean : m.dirty = false) :
    Step ⟨w, g, false⟩
      ⟨(w.note (.dirtied n)).madeDirty n, .writing m.runtime (.memo n) [.value] :: g, false⟩
  -- Memos
  | newMemo {w : World} {g : List Frame} {rt : RuntimeId} {body : Closure} (code : AtCode g)
    (valid : rt < w.runtimes.size) (closure : body.Valid w) :
    Step ⟨w, g, false⟩ ⟨w.pushNode (.memo { runtime := rt, body := body }), g, false⟩
  | reuse {w : World} {g : List Frame} {n : NodeId} {m : Memo} {r : Result} (code : AtCode g)
    (memo : w.memo? n = some m) (clean : m.dirty = false) (result : m.result = some r)
    (computed : ∀ x rt s, g = .running x rt :: s → w.isWatcher x = false) :
    Step ⟨w, g, false⟩
      ⟨(w.trackedIn m.runtime (.memo n) .value).note (.recalled n),
        .reading (w.currentReader m.runtime) n :: g, false⟩
  | beginCompute {w : World} {g : List Frame} {n : NodeId} {m : Memo} (code : AtCode g)
    (memo : w.memo? n = some m) (stale : m.dirty ∨ m.result = none)
    (computed : ∀ x rt s, g = .running x rt :: s → w.isWatcher x = false) :
    Step ⟨w, g, false⟩
      ⟨(w.trackedIn m.runtime (.memo n) .value).computing n m.runtime,
        .computing n m.runtime
            ((w.trackedIn m.runtime (.memo n) .value).computing n m.runtime).history ::
          .reading (w.currentReader m.runtime) n :: g, false⟩
  | endCompute {w : World} {g : List Frame} {n : NodeId} {rt : RuntimeId} {start since : List Event}
    {r : Result} (valid : r.Valid w) (history : w.history = since ++ start)
    (follows : ∀ m, w.memo? n = some m → m.body.body.isPure → w.runtimes.size = 1 →
      m.body.body.Follows ⟨m.body.runtime, []⟩ n since w.lookup r) :
    Step ⟨w, .computing n rt start :: g, false⟩ ⟨w.computed n rt r, g, false⟩
  | abandonCompute {w : World} {g : List Frame} {n : NodeId} {rt : RuntimeId} {start : List Event} :
    Step ⟨w, .computing n rt start :: g, true⟩ ⟨w.popContext rt, g, true⟩
  | endReading {w : World} {g : List Frame} {n : NodeId} {reader : Option NodeId} {m : Memo}
    {r : Result} (memo : w.memo? n = some m) (result : m.result = some r) :
    Step ⟨w, .reading reader n :: g, false⟩ ⟨w.gotBy reader n r, g, false⟩
  -- Effects
  | newEffect {w : World} {g : List Frame} {rt : RuntimeId} {job : Job} (code : AtCode g) (free : Free w g)
    (valid : rt < w.runtimes.size) (closures : job.Valid w) (other : job.isWatcher = false)
    (new : job.isNew) :
    Step ⟨w, g, false⟩
      ⟨w.pushNode (.effect { runtime := rt, job := job }), .created w.nodes.size :: g, false⟩
  | newStore {w : World} {g : List Frame} {state : ObjectId} (code : AtCode g) (free : Free w g)
    (valid : state < w.objects.size) :
    Step ⟨w, g, false⟩ ⟨w.withStore state, .created w.nodes.size :: g, false⟩
  | addCleanup {w : World} {g : List Frame} {rt : RuntimeId} {n : NodeId} {e : Effect} {c : Closure}
    (code : AtCode g) (free : Free w g) (reader : w.currentReader rt = some n)
    (effect : w.effect? n = some e) (live : e.disposed = false) (closure : c.Valid w) :
    Step ⟨w, g, false⟩
      ⟨(w.note (.cleanupAdded n c)).modifyEffect n fun e =>
        { e with cleanups := e.cleanups ++ [c] }, g, false⟩
  | beginCleaning {w : World} {g : List Frame} {n : NodeId} {e : Effect}
    (effect : w.effect? n = some e) :
    Step ⟨w, .pending n :: g, false⟩
      ⟨w.cleaning n e.runtime, .amid (.cleaning n e.runtime e.cleanups) :: .pending n :: g, false⟩
  | endCleaning {w : World} {g : List Frame} {n : NodeId} {rt : RuntimeId} :
    Step ⟨w, .amid (.cleaning n rt []) :: g, false⟩ ⟨(w.popContext rt).note (.cleanedUp n), g, false⟩
  | abandonCleaning {w : World} {g : List Frame} {s : Stage} {rt : RuntimeId}
    (mask : s.mask? = some rt) : Step ⟨w, .amid s :: g, true⟩ ⟨w.popContext rt, g, true⟩
  | skipPending {w : World} {g : List Frame} {n : NodeId} (disposed : w.isDisposed n) :
    Step ⟨w, .pending n :: g, false⟩ ⟨w, g, false⟩
  | clearRunning {w : World} {g : List Frame} {n : NodeId} {e : Effect}
    (effect : w.effect? n = some e) (busy : e.running) :
    Step ⟨w, .pending n :: g, false⟩ ⟨w.clearedOf n, g, false⟩
  | beginRun {w : World} {g : List Frame} {n : NodeId} {rt : RuntimeId} {f : Frame} {e : Effect}
    (effect : w.effect? n = some e) (idle : e.running = false) (valid : rt < w.runtimes.size)
    (turn : (f = .pending n ∧ ∃ batch s, g = .round rt batch :: s) ∨
      f = .created n ∧ e.runtime = rt) (cleaned : ∃ old, w.history = .cleanedUp n :: old) :
    Step ⟨w, f :: g, false⟩ ⟨w.running n rt, .running n rt :: g, false⟩
  | endRun {w : World} {g : List Frame} {n : NodeId} {rt : RuntimeId}
    (other : w.isWatcher n = false) :
    Step ⟨w, .running n rt :: g, false⟩ ⟨w.ran n rt, g, false⟩
  | beginWatch {w : World} {g : List Frame} {n : NodeId} {rt : RuntimeId} {e : Effect}
    (effect : w.effect? n = some e) (other : w.isWatcher n = false) :
    Step ⟨w, .running n rt :: g, false⟩
      ⟨w, .amid (.getting n e.job) :: .running n rt :: g, false⟩
  /-- Something happens in the course of the cleanups of an effect or the run of a watch. -/
  | advance {w : World} {g : List Frame} {s s' : Stage} {event : Event}
    (h : s.Advance event s') : Step ⟨w, .amid s :: g, false⟩ ⟨w.note event, .amid s' :: g, false⟩
  | keep {w : World} {g : List Frame} {n : NodeId} {job : Job} {duties : List Duty}
    (closures : job.Valid w) (other : w.isWatcher n = false)
    (follows : ∀ e, w.effect? n = some e → e.job.Follows job) :
    Step ⟨w, .amid (.reporting n (.keep job :: duties)) :: g, false⟩
      ⟨w.modifyEffect n fun e => { e with job := job }, .amid (.reporting n duties) :: g, false⟩
  | endReport {w : World} {g : List Frame} {n : NodeId} :
    Step ⟨w, .amid (.reporting n []) :: g, false⟩ ⟨w, g, false⟩
  | watched {w : World} {g : List Frame} {n : NodeId} {rt : RuntimeId} {e : Effect} {id : StoreId}
    {primed : Bool} (effect : w.effect? n = some e) (job : e.job = .watchStore id primed)
    (seen : (w.store id).runtime = rt → w.SeenThrough n (w.store id)) :
    Step ⟨w, .running n rt :: g, false⟩ ⟨w, .watched n :: .running n rt :: g, false⟩
  /-- The first run of a watcher only reads. -/
  | prime {w : World} {g : List Frame} {n : NodeId} {e : Effect} {id : StoreId}
    (effect : w.effect? n = some e) (job : e.job = .watchStore id false) :
    Step ⟨w, .watched n :: g, false⟩
      ⟨w.modifyEffect n fun e => { e with job := .watchStore id true }, .notified n :: g, false⟩
  /-- There is nobody to notify of the state of a store that nobody holds. -/
  | skipPass {w : World} {g : List Frame} {n : NodeId} {e : Effect} {id : StoreId}
    (effect : w.effect? n = some e) (job : e.job = .watchStore id true)
    (gone : (w.store id).isAlive = false) :
    Step ⟨w, .watched n :: g, false⟩ ⟨w, .notified n :: g, false⟩
  /-- A watcher whose turn has come starts a pass. -/
  | watchPass {w : World} {g : List Frame} {n : NodeId} {rt : RuntimeId} {batch : List NodeId}
    {e : Effect} {id : StoreId} (effect : w.effect? n = some e) (job : e.job = .watchStore id true)
    (valid : id < w.stores.size) (idle : (w.store id).notifying = false) :
    Step ⟨w, .watched n :: .running n rt :: .round rt batch :: g, false⟩
      ⟨w.passBegun id, .passing id (w.store id).runtime (w.store id).subscribers :: .notified n ::
        .running n rt :: .round rt batch :: g, false⟩
  | watchPostpone {w : World} {g : List Frame} {n : NodeId} {e : Effect} {id : StoreId}
    (effect : w.effect? n = some e) (job : e.job = .watchStore id true)
    (busy : (w.store id).notifying) :
    Step ⟨w, .watched n :: g, false⟩ ⟨w.passPostponed id, .notified n :: g, false⟩
  | endWatch {w : World} {g : List Frame} {n : NodeId} {rt : RuntimeId}
    (primed : ∀ e, w.effect? n = some e → e.job.isPrimed) :
    Step ⟨w, .notified n :: .running n rt :: g, false⟩ ⟨w.ran n rt, g, false⟩
  | abandonRun {w : World} {g : List Frame} {n : NodeId} {rt : RuntimeId} :
    Step ⟨w, .running n rt :: g, true⟩ ⟨w.stopped n rt, g, true⟩
  | dispose {w : World} {g : List Frame} {n : NodeId} {e : Effect} (code : AtCode g)
    (effect : w.effect? n = some e) (live : e.disposed = false) (free : Free w g)
    (other : w.isWatcher n = false) :
    Step ⟨w, g, false⟩
      ⟨(w.disposing n).cleaning n e.runtime, .amid (.cleaning n e.runtime e.cleanups) :: g, false⟩
  | retire {w : World} {g : List Frame} {u : Bool} {n : NodeId} (effect : (w.effect? n).isSome)
    (watcher : ∃ id, id < w.stores.size ∧ (w.store id).watcher = n) :
    Step ⟨w, g, u⟩ ⟨(w.disposing n).note (.disposed n), g, u⟩
  | mask {w : World} {g : List Frame} {rt : RuntimeId} (code : AtCode g) (free : Free w g)
    (valid : rt < w.runtimes.size) :
    Step ⟨w, g, false⟩ ⟨w.pushContext rt none, .masked rt :: g, false⟩
  | unmask {w : World} {g : List Frame} {rt : RuntimeId} {u : Bool} :
    Step ⟨w, .masked rt :: g, u⟩ ⟨w.popContext rt, g, u⟩
  -- Stores
  | beginPass {w : World} {g : List Frame} {id : StoreId} (code : AtCode g) (free : Free w g)
    (valid : id < w.stores.size) (idle : (w.store id).notifying = false) :
    Step ⟨w, g, false⟩
      ⟨(w.note (.passAsked id)).passBegun id,
        .passing id (w.store id).runtime (w.store id).subscribers :: g, false⟩
  | postpone {w : World} {g : List Frame} {id : StoreId} (code : AtCode g) (free : Free w g)
    (busy : (w.store id).notifying) :
    Step ⟨w, g, false⟩ ⟨(w.note (.passAsked id)).passPostponed id, g, false⟩
  /-- A subscriber is left out of a pass if it was cancelled in the meantime or its callback is
  running further out, and if the pass is interrupted. -/
  | passOver {w : World} {g : List Frame} {id : StoreId} {rt : RuntimeId} {sub : SubscriptionId}
    {subs : List SubscriptionId} {u : Bool}
    (omitted : u ∨ (w.subscription sub).active = false ∨ (w.subscription sub).running) :
    Step ⟨w, .passing id rt (sub :: subs) :: g, u⟩ ⟨w, .passing id rt subs :: g, u⟩
  | endPass {w : World} {g : List Frame} {id : StoreId} {rt : RuntimeId} {u : Bool} :
    Step ⟨w, .passing id rt [] :: g, u⟩ ⟨w.passEnded id rt, .passed id :: g, u⟩
  | settle {w : World} {g : List Frame} {id : StoreId} (settled : (w.store id).pending = false) :
    Step ⟨w, .passed id :: g, false⟩ ⟨w, g, false⟩
  /-- A pass that was put off is not made up for if the watcher has gone. -/
  | forgo {w : World} {g : List Frame} {id : StoreId}
    (disposed : w.isDisposed (w.store id).watcher) :
    Step ⟨w, .passed id :: g, false⟩ ⟨w.modifyStore id fun s => { s with pending := false }, g, false⟩
  /-- A pass that was put off is made up for by a run of the watcher. -/
  | takeUp {w : World} {g : List Frame} {id : StoreId} {e : Effect}
    (pending : (w.store id).pending) (effect : w.effect? (w.store id).watcher = some e)
    (live : e.disposed = false) :
    Step ⟨w, .passed id :: g, false⟩
      ⟨(w.modifyStore id fun s => { s with pending := false }).note (.scheduled (w.store id).watcher),
        .telling e.runtime [(w.store id).watcher] :: g, false⟩
  | beginCall {w : World} {g : List Frame} {id : StoreId} {rt : RuntimeId} {sub : SubscriptionId}
    {subs : List SubscriptionId} (valid : sub < w.subscriptions.size)
    (active : (w.subscription sub).active) (idle : (w.subscription sub).running = false) :
    Step ⟨w, .passing id rt (sub :: subs) :: g, false⟩
      ⟨w.callBegun sub (w.toJson (.object (w.store id).state)),
        .calling sub :: .passing id rt subs :: g, false⟩
  | subscribe {w : World} {g : List Frame} {id : StoreId} {callback : Closure} (code : AtCode g)
    (free : Free w g) (valid : id < w.stores.size) (closure : callback.Valid w) :
    Step ⟨w, g, false⟩
      ⟨(w.withSubscription id callback).pushContext (w.store id).runtime none,
        .greeting id w.subscriptions.size :: .masked (w.store id).runtime :: g, false⟩
  | greet {w : World} {g : List Frame} {id : StoreId} {sub : SubscriptionId}
    (valid : sub < w.subscriptions.size) (idle : (w.subscription sub).running = false) :
    Step ⟨w, .greeting id sub :: g, false⟩
      ⟨w.callBegun sub (w.toJson (.object (w.store id).state)), .calling sub :: g, false⟩
  | endCall {w : World} {g : List Frame} {sub : SubscriptionId} {u : Bool} :
    Step ⟨w, .calling sub :: g, u⟩ ⟨w.callEnded sub, g, u⟩
  -- Runtimes
  | newRuntime {w : World} {g : List Frame} {settings : Settings} {hook : Hook} (code : AtCode g) :
    Step ⟨w, g, false⟩
      ⟨{ w with runtimes := w.runtimes.push { settings := settings, hook := hook } }, g, false⟩
  | beginFlush {w : World} {g : List Frame} {rt : RuntimeId}
    (code : AtCode g ∨ AtTelling g ∧ (w.runtime rt).hook = .flush) (free : AtCode g → Free w g)
    (valid : rt < w.runtimes.size)
    (idle : (w.runtime rt).flushing = false)
    (own : TellsFor rt g) :
    Step ⟨w, g, false⟩
      ⟨(w.note (.flushBegan rt)).modifyRuntime rt fun r =>
        { r with flushing := true, flushRequested := false }, .flushing rt :: g, false⟩
  | beginRound {w : World} {g : List Frame} {rt : RuntimeId} (work : (w.runtime rt).queue ≠ []) :
    Step ⟨w, .flushing rt :: g, false⟩
      ⟨(w.modifyRuntime rt fun r => { r with queue := [] }).note
        (.roundBegan rt (w.runtime rt).queue),
        .round rt (w.runtime rt).queue :: .flushing rt :: g, false⟩
  /-- A flush is given up after a round, or at once if it may not take any. -/
  | giveUp {w : World} {s g : List Frame} {rt : RuntimeId} (work : (w.runtime rt).queue ≠ [])
    (frames : s = .round rt [] :: .flushing rt :: g ∨
      s = .flushing rt :: g ∧ (w.runtime rt).settings.flushCap = 0) :
    Step ⟨w, s, false⟩
      ⟨(w.modifyRuntime rt fun r => { r with queue := [] }).note (.gaveUp rt),
        .flushing rt :: g, false⟩
  | skipTurn {w : World} {g : List Frame} {rt : RuntimeId} {n : NodeId} {batch : List NodeId}
    (disposed : w.isDisposed n) :
    Step ⟨w, .round rt (n :: batch) :: g, false⟩ ⟨w, .round rt batch :: g, false⟩
  | beginTurn {w : World} {g : List Frame} {rt : RuntimeId} {n : NodeId} {batch : List NodeId}
    (live : w.isDisposed n = false) :
    Step ⟨w, .round rt (n :: batch) :: g, false⟩
      ⟨w.note (.turnBegan rt n), .pending n :: .round rt batch :: g, false⟩
  | endRound {w : World} {g : List Frame} {rt : RuntimeId} :
    Step ⟨w, .round rt [] :: g, false⟩ ⟨w, g, false⟩
  | endFlush {w : World} {g : List Frame} {rt : RuntimeId} {u : Bool}
    (done : u = false → (w.runtime rt).queue = []) :
    Step ⟨w, .flushing rt :: g, u⟩
      ⟨(w.modifyRuntime rt fun r => { r with flushing := false }).note (.flushEnded rt), g, u⟩
  -- Interrupts
  | throw {w : World} {g : List Frame} {message : String} (code : AtCode g) :
    Step ⟨w, g, false⟩ ⟨w.note (.threw message), g, true⟩
  | exhaust {w : World} {g : List Frame} (call : MidCall g) :
    Step ⟨w, g, false⟩ ⟨w.note .exhausted, g, true⟩
  | drop {w : World} {g : List Frame} {f : Frame} (droppable : f.Droppable) :
    Step ⟨w, f :: g, true⟩ ⟨w, g, true⟩
  | resume {w : World} {g : List Frame} : Step ⟨w, g, true⟩ ⟨w, g, false⟩

/-- `Reaches c c'`: steps lead from `c` to `c'`. -/
inductive Reaches (c : Config) : Config → Prop
  | refl : Reaches c c
  | tail {c' c'' : Config} (steps : Reaches c c') (step : Step c' c'') : Reaches c c''

end Reactivity
