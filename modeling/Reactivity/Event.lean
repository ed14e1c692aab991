import Reactivity.Program.Expr
import Reactivity.State.Result

namespace Reactivity

/-- A read of a container or memo. -/
inductive Read
  | property (id : ObjectId) (name : String)
  | contains (id : ObjectId) (name : String)
  | names (id : ObjectId)
  | entries (id : ObjectId)
  | slot (id : ArrayId) (i : Nat)
  | values (id : ArrayId)
  /-- The number of properties or slots, as a JSON integer. -/
  | size (h : Handle)
  | memo (n : NodeId)
  deriving DecidableEq, Repr

/-- A write of a container: what was in its place before, and what is there then. -/
inductive Write
  | property (id : ObjectId) (name : String) (old : Option Cell) (new : Option Value)
  | slot (id : ArrayId) (i : Nat) (old : Option Cell) (new : Value)
  /-- The content of an array as a whole. -/
  | items (id : ArrayId) (before after : List Value)
  deriving Repr

/-- One thing that has happened. -/
inductive Event
  /-- An expression has thrown the message. -/
  | threw (message : String)
  /-- A body was nested too deeply to be evaluated. -/
  | exhausted
  /-- A variable was bound, or removed. -/
  | bound (name : String)
  /-- A container was made that holds the values. -/
  | wrapped (values : List Value)
  /-- A container that was there before was written, if only with what it held. -/
  | wrote (write : Write)
  /-- The change of an array as a whole is being computed, and has been. -/
  | changeBegan (id : ArrayId)
  | changeEnded (id : ArrayId)
  /-- A computation was registered on a part of a thing, or was so already. -/
  | tracked (reader : NodeId) (handle : Handle) (key : Key)
  /-- A tracked read of a computation gave a result. -/
  | saw (reader : NodeId) (read : Read) (result : Result)
  /-- A computation was taken from everything it was registered on. -/
  | cleared (reader : NodeId)
  | triggered (handle : Handle) (key : Key)
  | queued (runtime : RuntimeId) (effect : NodeId)
  /-- An effect was to be queued without a trigger. -/
  | scheduled (effect : NodeId)
  /-- The hook was asked for a flush. -/
  | requested (runtime : RuntimeId)
  | flushBegan (runtime : RuntimeId)
  | roundBegan (runtime : RuntimeId) (batch : List NodeId)
  /-- The turn of an effect in a round has come, and is over. -/
  | turnBegan (runtime : RuntimeId) (effect : NodeId)
  | turnEnded (runtime : RuntimeId) (effect : NodeId)
  /-- A flush was given up with work left. -/
  | gaveUp (runtime : RuntimeId)
  | flushEnded (runtime : RuntimeId)
  /-- The function of an effect or memo was started, and has returned. -/
  | started (node : NodeId)
  | finished (node : NodeId)
  | disposed (effect : NodeId)
  | cleanupAdded (effect : NodeId) (cleanup : Closure)
  | cleanupStarted (effect : NodeId) (cleanup : Closure)
  /-- A cleanup has been called and has not thrown. -/
  | cleanupReturned (effect : NodeId) (cleanup : Closure)
  /-- All cleanups that an effect had have been called, if it had any. -/
  | cleanedUp (effect : NodeId)
  /-- The getter of a watch gave a result. -/
  | watchGot (effect : NodeId) (result : Result)
  /-- A watch calls back with a new result and the one before. -/
  | watchCalled (effect : NodeId) (new : Result) (old : Option Result)
  /-- The callback of a watch has not thrown. -/
  | watchReturned (effect : NodeId)
  /-- A memo was made dirty from outside. -/
  | dirtied (memo : NodeId)
  /-- The result that a memo keeps was taken for a read of it. -/
  | recalled (memo : NodeId)
  /-- A read of a memo gave a result. -/
  | got (memo : NodeId) (result : Result)
  /-- The program has asked for a pass of calls to the subscribers of a store. -/
  | passAsked (store : StoreId)
  | passBegan (store : StoreId)
  | passEnded (store : StoreId)
  /-- A pass was asked for during another one. -/
  | passPostponed (store : StoreId)
  /-- A subscriber was called on a state with this JSON, and the call is over. -/
  | delivered (subscription : SubscriptionId) (state : Json)
  | returned (subscription : SubscriptionId)
  /-- A subscriber was left out because its callback is running further out. -/
  | skipped (subscription : SubscriptionId)
  | subscribed (subscription : SubscriptionId)
  | unsubscribed (subscription : SubscriptionId)
  /-- Whoever looks at the program has written down what a path from something leads to. -/
  | sighted (target : Result) (path : List Result) (found : Result)

end Reactivity
