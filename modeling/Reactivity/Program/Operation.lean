import Reactivity.Graph.Flush
import Reactivity.Graph.Memo
import Reactivity.Json.Writer
import Reactivity.Program.Describe
import Reactivity.Program.Variables

namespace Reactivity

def raise (message : String) : Act α := do
  note (.threw message)
  throw (.thrown message)

def attempt (act : Act Result) : Act Result :=
  ExceptT.mk do
    match ← act.run with
    | .error (.thrown message) => return .ok (.thrown message)
    | outcome => return outcome

mutual

/-- Plain JSON of a result: null for what is neither a value nor plain, nor a list. -/
def Result.toJson (w : World) : Result → Json
  | .value v => w.toJson v
  | .plain j => j
  | .list items => .array (itemsToJson w items)
  | _ => .null

def Result.itemsToJson (w : World) : List Result → List Json
  | [] => []
  | r :: items => r.toJson w :: itemsToJson w items

end

/-- Plain JSON of a value as a result. A number that is a float is marked as one. -/
def Result.ofSnapshot : Json → Result
  | .float x => .plain (.object [("float", .float x)])
  | j => .ofJson j

def Arithmetic.apply : Arithmetic → Number → Number → Number
  | .add => Number.add
  | .sub => Number.sub
  | .mul => Number.mul
  | .rem => Number.rem

def Result.order : Result → Result → Ordering
  | .value (.number x), .value (.number y) => x.compare y
  | .value (.string s), .value (.string t) => Ord.compare s t
  | _, _ => .eq

def orderNumber : Ordering → Result
  | .lt => .ofNumber (.ofInt (-1))
  | .eq => .ofNat 0
  | .gt => .ofNat 1

def ValueKind.holds : ValueKind → Value → Bool
  | .reactive, v => v.isReactive
  | .null, .null => true
  | .object, .object _ => true
  | .array, .array _ => true
  | .external, .external _ => true
  | _, _ => false

/-- A value as the view asks for. An integer is a number again, without the sign of zero. -/
def ValueView.apply : ValueView → Value → Result
  | .bool, .bool b => .ofBool b
  | .number, .number x => .value (.number x)
  | .integer, .number x => (x.integer?.map fun n => .ofNumber (.ofInt n)).getD .nothing
  | .string, .string s => .ofString s
  | _, _ => .nothing

/-- Number of flushes that one turn of the task queue may run. It is far above what a program needs
whose flushes do not ask for one another without end. -/
def turnLimit : Nat := 1000000000

/-- Runs the flushes that wait for the next turn, in order. A throw ends only its flush. -/
def runTasks (k : Kernel) : Nat → Act Unit
  | 0 => return
  | turns + 1 => do
    let w ← get
    match w.tasks with
    | [] => return
    | rt :: tasks =>
      set { w with tasks := tasks }
      let _ ← attempt do
        let _ ← flush k rt
        return .nothing
      runTasks k turns

def readStep (tracked : Bool) (target key : Result) : Change Result := do
  match target, key with
  | .value (.object id), .value (.string name) =>
    return .ofValue? (← if tracked then id.read name else id.peek name)
  | .value (.array id), .value (.number x) =>
    return .ofValue? (← if tracked then id.read x.toIndex else id.peek x.toIndex)
  | _, _ => return .nothing

/-- The effect that the operation of the given name acts on. A program that applies it to anything
else is at fault. -/
def Result.asEffect (operation : String) : Result → Act NodeId
  | .effect n => return n
  | _ => raise ("bad script: " ++ operation ++ ": not an effect")

def Result.asMemo (operation : String) : Result → Act NodeId
  | .memo n => return n
  | _ => raise ("bad script: " ++ operation ++ ": not a memo")

def effectReport (operation : String) (r : Result) (report : Effect → Result) : Act Result := do
  let n ← r.asEffect operation
  return (((← get).effect? n).map report).getD .nothing

def memoReport (operation : String) (r : Result) (report : Memo → Result) : Act Result := do
  let n ← r.asMemo operation
  return (((← get).memo? n).map report).getD .nothing

def runOp (k : Kernel) (rt : RuntimeId) (op : Op) (args : List Result) : Act Result := do
  let a := args.getD 0 .nothing
  let b := args.getD 1 .nothing
  match op with
  | .arithmetic op => return .ofNumber (op.apply a.toNumber b.toNumber)
  | .less => return .ofBool (a.toNumber.lt b.toNumber)
  | .same => return .ofBool (a.same b)
  | .not => return .ofBool !a.isTrue
  | .isNothing => return .ofBool (a.same .nothing)
  | .order => return orderNumber (a.order b)
  | .here => return .runtime rt
  | .runtimeOf =>
    match a with
    | .value (.object id) => return .runtime ((← get).object id).runtime
    | .value (.array id) => return .runtime ((← get).array id).runtime
    | _ => return .nothing
  | .newRuntime settings hook =>
    let w ← get
    set { w with runtimes := w.runtimes.push { settings := settings, hook := hook } }
    return .runtime w.runtimes.size
  | .flushCap => return .ofNat ((← get).runtime rt).settings.flushCap
  | .flush =>
    match ← flush k rt with
    | .ok stats => return .stats stats
    | .error e => return .error e
  | .pendingCount => return .ofNat ((← get).runtime rt).queue.length
  | .isFlushing => return .ofBool ((← get).runtime rt).flushing
  | .isTracking => return .ofBool ((← get).currentReader rt).isSome
  | .currentReader => return ((← get).currentReader rt).elim .nothing .ofNat
  | .runTasks =>
    runTasks k turnLimit
    return .nothing
  | .describe => return ((← get).describeResult? a).elim .nothing .ofString
  | .wrap => return .value (← a.toValue rt)
  | .wrapObject =>
    match a.toJson (← get) with
    | .object members => return .value (← wrap rt (.object members))
    | _ => return .error .notAnObject
  | .newObject => return .value (← wrap rt (.object []))
  | .newArray => return .value (← wrap rt (.array []))
  | .newExternal content =>
    let w ← get
    set { w with externals := w.externals.push content }
    return .value (.external w.externals.size)
  | .externalContent =>
    match a with
    | .value (.external id) =>
      return .list [.ofString ((← get).externals.getD id ""), .ofBool false]
    | _ => return .nothing
  | .isKind kind =>
    match a with
    | .value v => return .ofBool (kind.holds v)
    | _ => return .ofBool false
  | .view kind =>
    match a with
    | .value v => return kind.apply v
    | _ => return .nothing
  | .toJson =>
    match a with
    | .value v => return .ofSnapshot ((← get).toJson v)
    | _ => return a
  | .serialize =>
    match a with
    | .value v => return .ofSnapshot (← serialize v).sorted
    | _ => return a
  | .serializeText =>
    match a with
    | .value v => return .ofString (← serialize v).render
    | _ => return .nothing
  | .dispose =>
    dispose k (← a.asEffect "dispose")
    return .nothing
  | .schedule =>
    schedule k (← a.asEffect "schedule")
    return .nothing
  | .isDisposed => effectReport "disposed" a fun e => .ofBool e.disposed
  | .runCount => effectReport "runs" a fun e => .ofNat e.runCount
  | .dependencyCount => effectReport "deps" a fun e => .ofNat e.sources.length
  | .readMemo => readMemo k (← a.asMemo "mget")
  | .peekMemo => memoReport "mpeek" a fun m => m.result.elim .nothing fun r => .list [r]
  | .dirtyMemo =>
    dirtyMemo k (← a.asMemo "mdirty")
    return .nothing
  | .memoState => memoReport "mstate" a fun m => .ofString (if m.dirty then "Dirty" else "Clean")
  | .memoHasValue => memoReport "mhas" a fun m => .ofBool m.result.isSome
  | .computeCount => memoReport "mcount" a fun m => .ofNat m.computeCount
  | .dependentCount => memoReport "mdependents" a fun m => .ofNat (m.readers.on .value).length

def ContainerOp.onObject : ContainerOp → Bool
  | .contains _ | .keys | .entries => true
  | _ => false

def ContainerOp.onBoth : ContainerOp → Bool
  | .set | .remove | .length | .isEmpty | .trackedKeys | .propertyReaders _ | .indexReaders
  | .shapeReaders | .valueReaders => true
  | _ => false

def ContainerOp.accepts (op : ContainerOp) : Result → Bool
  | .value (.object _) => op.onObject || op.onBoth
  | .value (.array _) => !op.onObject
  | _ => false

def readerCount (h : Handle) (key : Key) : Change Result := do
  return .ofNat (((← get).readers h).on key).length

def ContainerOp.report (op : ContainerOp) (h : Handle) (args : List Result) : Change Result := do
  match op with
  | .trackedKeys => return .ofNat ((← get).readers h).keys.length
  | .propertyReaders name => readerCount h (.property name)
  | .indexReaders => readerCount h (.index (args.getD 0 .nothing).toNumber.toIndex)
  | .shapeReaders => readerCount h .shape
  | .valueReaders => readerCount h .value
  | _ => return .nothing

def runOnObject (k : Kernel) (id : ObjectId) (op : ContainerOp) (args : List Result) :
    Act Result := do
  let a := args.getD 0 .nothing
  match op with
  | .set =>
    match a with
    | .value (.string name) =>
      let v ← (args.getD 1 .nothing).toValue ((← get).object id).runtime
      id.set k name v
      return .nothing
    | _ => return .nothing
  | .remove =>
    match a with
    | .value (.string name) => return .ofValue? (← id.remove k name)
    | _ => return .nothing
  | .contains name => return .ofBool (← id.contains name)
  | .keys => return .list ((← id.keys).map .ofString)
  | .entries => return .ofEntries (← id.entries)
  | .length => return .ofNat (← id.length)
  | .isEmpty => return .ofBool ((← id.length) == 0)
  | op => op.report (.object id) args

def runOnArray (k : Kernel) (id : ArrayId) (op : ContainerOp) (args : List Result) :
    Act Result := do
  let rt := ((← get).array id).runtime
  let a := args.getD 0 .nothing
  let b := args.getD 1 .nothing
  let i := a.toNumber.toIndex
  match op with
  | .set => return .ofUnit (← id.set k i (← b.toValue rt))
  | .remove => return .ofValue? (← id.remove k i)
  | .length => return .ofNat (← id.length)
  | .isEmpty => return .ofBool ((← id.length) == 0)
  | .values => return .list ((← id.values).map .value)
  | .push =>
    id.push k (← a.toValue rt)
    return .nothing
  | .pop => return .ofValue? (← id.pop k)
  | .insert => return .ofUnit (← id.insert k i (← b.toValue rt))
  | .truncate =>
    id.truncate k i
    return .nothing
  | .clear =>
    id.clear k
    return .nothing
  | .swap => return .ofUnit (← id.swap k i b.toNumber.toIndex)
  | .reverse =>
    id.reverse k
    return .nothing
  | .extend =>
    let vs ← args.mapM fun r => (r.toValue rt : Change Value)
    id.extend k vs
    return .nothing
  | op => op.report (.array id) args

def runContainerOp (k : Kernel) (op : ContainerOp) (target : Result) (args : List Result) :
    Act Result :=
  match target with
  | .value (.object id) => runOnObject k id op args
  | .value (.array id) => runOnArray k id op args
  | _ => return .nothing

def bindStore (name : String) : Except StateError StoreId → Change Result
  | .ok id => do
    bind name (.store id)
    return .nothing
  | .error e => return .error e

/-- Applies an operation to the store or subscription of the given name. -/
def runStoreOp (k : Kernel) (rt : RuntimeId) (op : StoreOp) (name : String)
    (args : List Result) : Act Result := do
  let a := args.getD 0 .nothing
  let w ← get
  let onStore (f : StoreId → Act Result) : Act Result :=
    match w.storeNamed? name with
    | some id => f id
    | none => return .nothing
  let onSubscription (f : SubscriptionId → Act Result) : Act Result :=
    match w.subscriptionNamed? name with
    | some id => f id
    | none => return .nothing
  match op with
  | .create => bindStore name (← createStore k rt (a.toJson w))
  | .adopt =>
    match a with
    | .value (.object id) => bindStore name (.ok (← adoptStore k id))
    | _ => return .nothing
  | .clone source =>
    match w.storeNamed? source with
    | some id =>
      holdStore id
      bindStore name (.ok id)
    | none => return .nothing
  | .state => onStore fun id => return .value (.object (w.store id).state)
  | .runtime => onStore fun id => return .runtime (w.store id).runtime
  | .set => onStore fun id => return .ofUnit (← holding id (setStore k id (a.toJson w)))
  | .notify => onStore fun id => do
    holding id (requestPass k id)
    return .nothing
  | .snapshot => onStore fun id => return .ofJson (w.toJson (.object (w.store id).state))
  | .subscriberCount => onStore fun id => return .ofNat (w.store id).subscribers.length
  | .cancel => onSubscription fun id => do
    unsubscribe id
    return .nothing
  | .isActive => onSubscription fun id => return .ofBool (w.subscription id).active
  | .describe =>
    match w.storeNamed? name, w.subscriptionNamed? name with
    | some id, _ => return .ofString (w.describeStore id)
    | _, some id => return .ofString (w.subscription id).describe
    | _, _ => return .nothing

end Reactivity
