
namespace Reactivity

/-- Runtimes, objects, arrays, external values, nodes, stores and subscriptions are numbered in the
order of their creation. -/
abbrev RuntimeId := Nat
abbrev ObjectId := Nat
abbrev ArrayId := Nat
abbrev ExternalId := Nat
abbrev NodeId := Nat
abbrev StoreId := Nat
abbrev SubscriptionId := Nat

/-- The part of a thing that a computation reads. -/
inductive Key
  /-- A property of an object, whether it is there or not. -/
  | property (name : String)
  /-- A slot of an array, whether it is there or not. -/
  | index (i : Nat)
  /-- Which properties an object has, or how long an array is and in which order. -/
  | shape
  /-- The result of a memo. -/
  | value
  deriving DecidableEq, Repr

/-- A thing that can be read. -/
inductive Handle
  | object (id : ObjectId)
  | array (id : ArrayId)
  | memo (id : NodeId)
  deriving DecidableEq, Repr

end Reactivity
