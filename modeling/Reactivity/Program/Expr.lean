import Reactivity.Graph.Key
import Reactivity.Graph.Settings
import Reactivity.Json.Basic

namespace Reactivity

/-- Decides when a flush happens after work has been queued. -/
inductive Hook
  /-- Only where the program asks for it. -/
  | manual
  /-- As `manual`, and the request is logged. -/
  | log
  /-- At once, after the request is logged. -/
  | flush
  /-- At the next turn of the task queue. -/
  | task
  deriving DecidableEq, Repr, Inhabited

/-- Operations on two numbers. -/
inductive Arithmetic
  | add
  | sub
  | mul
  | rem
  deriving DecidableEq, Repr

/-- Kinds of value that can be asked for. -/
inductive ValueKind
  | reactive
  | null
  | object
  | array
  | external
  deriving DecidableEq, Repr

/-- What a value can be read as. -/
inductive ValueView
  | bool
  | number
  | integer
  | string
  deriving DecidableEq, Repr

/-- Operations on results, all of whose arguments are evaluated first. -/
inductive Op
  | arithmetic (op : Arithmetic)
  | less
  | same
  | not
  | isNothing
  | order
  /-- The current runtime, and the one that owns a container. -/
  | here
  | runtimeOf
  | newRuntime (settings : Settings) (hook : Hook)
  | flushCap
  | flush
  | pendingCount
  | isFlushing
  | isTracking
  | currentReader
  | runTasks
  | describe
  | wrap
  | wrapObject
  | newObject
  | newArray
  | newExternal (content : String)
  | externalContent
  | isKind (kind : ValueKind)
  | view (kind : ValueView)
  /-- Plain JSON of a value, untracked and tracked, and its text. -/
  | toJson
  | serialize
  | serializeText
  | dispose
  | schedule
  | isDisposed
  | runCount
  | dependencyCount
  | readMemo
  | peekMemo
  | dirtyMemo
  | memoState
  | memoHasValue
  | computeCount
  | dependentCount
  deriving Repr

/-- Operations on a container. Nothing more is evaluated if the target is of another kind. -/
inductive ContainerOp
  | set
  | remove
  | contains (name : String)
  | keys
  | entries
  | length
  | isEmpty
  | values
  | push
  | pop
  | insert
  | truncate
  | clear
  | swap
  | reverse
  | extend
  | trackedKeys
  /-- How many computations are registered on a property, a slot, or the shape. -/
  | propertyReaders (name : String)
  | indexReaders
  | shapeReaders
  | valueReaders
  deriving DecidableEq, Repr

/-- Operations on the store or subscription of a given name, all of whose arguments are evaluated
first. -/
inductive StoreOp
  | create
  | adopt
  | clone (source : String)
  | state
  | runtime
  | set
  | notify
  | snapshot
  | subscriberCount
  /-- Cancels a subscription. -/
  | cancel
  | isActive
  | describe
  deriving DecidableEq, Repr

/-- An expression of a program. -/
inductive Expr
  /-- Plain JSON if it is a container, a value otherwise. -/
  | literal (j : Json)
  | number (x : Number)
  | nothing
  | var (name : String)
  /-- An argument of the running body. -/
  | argument (i : Nat)
  | assign (name : String) (e : Expr)
  | forget (name : String)
  /-- In order; the result is the last one. -/
  | block (es : List Expr)
  | cond (c t e : Expr)
  | replicate (n : Expr) (es : List Expr)
  | log (es : List Expr)
  | list (es : List Expr)
  /-- A plain object of the names and the plain JSON of the results. -/
  | record (names : List String) (es : List Expr)
  | throw (message : String)
  | attempt (es : List Expr)
  /-- As `block`, with another current runtime. -/
  | within (runtime : Expr) (es : List Expr)
  | untracked (es : List Expr)
  | apply (op : Op) (es : List Expr)
  /-- Reads along a path, tracked or not. -/
  | path (tracked : Bool) (target : Expr) (keys : List Expr)
  | container (op : ContainerOp) (target : Expr) (es : List Expr)
  | sort (target body : Expr)
  | retain (target body : Expr)
  | effect (body : Expr)
  | watch (immediate : Bool) (getter callback : Expr)
  | memo (body : Expr)
  | onCleanup (body : Expr)
  | store (op : StoreOp) (name : String) (es : List Expr)
  | update (name : String) (body : Expr)
  | subscribe (subscription name : String) (body : Expr)
  deriving Repr, Inhabited

/-- A body to be evaluated later, in the runtime that was current where it was written. -/
structure Closure where
  body : Expr
  runtime : RuntimeId
  deriving Inhabited

end Reactivity
