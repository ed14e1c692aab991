import Reactivity.Proofs.Run.Step

namespace Reactivity

section SinceStart

variable {n : NodeId} {e : Event} {history : List Event}

@[simp] theorem sinceStart_started (n : NodeId) (history : List Event) :
    sinceStart n (.started n :: history) = [] := by
  simp [sinceStart]

theorem sinceStart_cons (h : e ≠ .started n) :
    sinceStart n (e :: history) = e :: sinceStart n history := by
  rw [sinceStart, List.takeWhile_cons_of_pos]
  · rfl
  · cases e with
    | started m => simpa using h
    | _ => rfl

theorem sinceStart_append {new : List Event} (h : .started n ∉ new) :
    sinceStart n (new ++ history) = new ++ sinceStart n history := by
  induction new with
  | nil => rfl
  | cons e new ih =>
    rw [List.mem_cons, not_or] at h
    rw [List.cons_append, sinceStart_cons (Ne.symm h.1), ih h.2, List.cons_append]

end SinceStart

namespace World

variable (w : World)

@[simp] theorem history_note (e : Event) : (w.note e).history = e :: w.history := rfl

@[simp] theorem history_modifyRuntime (rt : RuntimeId) (f : Runtime → Runtime) :
    (w.modifyRuntime rt f).history = w.history := rfl

@[simp] theorem history_modifyObject (id : ObjectId) (f : ObjectState → ObjectState) :
    (w.modifyObject id f).history = w.history := rfl

@[simp] theorem history_modifyArray (id : ArrayId) (f : ArrayState → ArrayState) :
    (w.modifyArray id f).history = w.history := rfl

@[simp] theorem history_modifyEffect (n : NodeId) (f : Effect → Effect) :
    (w.modifyEffect n f).history = w.history := rfl

@[simp] theorem history_modifyMemo (n : NodeId) (f : Memo → Memo) :
    (w.modifyMemo n f).history = w.history := rfl

@[simp] theorem history_modifyReaders (h : Handle) (f : Readers → Readers) :
    (w.modifyReaders h f).history = w.history := by
  cases h <;> rfl

@[simp] theorem history_modifyStore (id : StoreId) (f : Store → Store) :
    (w.modifyStore id f).history = w.history := rfl

@[simp] theorem history_modifySubscription (id : SubscriptionId)
    (f : Subscription → Subscription) : (w.modifySubscription id f).history = w.history := rfl

@[simp] theorem history_pushNode (node : Node) : (w.pushNode node).history = w.history := rfl

@[simp] theorem history_withStore (state : ObjectId) :
    (w.withStore state).history = w.history := rfl

@[simp] theorem history_trackedBy (n : NodeId) (h : Handle) (key : Key) :
    (w.trackedBy n h key).history = .tracked n h key :: w.history := by
  rw [trackedBy]
  split
  · rfl
  · exact history_modifyReaders _ h _

@[simp] theorem history_trackedIn (rt : RuntimeId) (h : Handle) (key : Key) :
    (w.trackedIn rt h key).history =
      ((w.currentReader rt).map (.tracked · h key)).toList ++ w.history := by
  rw [trackedIn]
  cases w.currentReader rt with
  | none => rfl
  | some n => exact w.history_trackedBy n h key

theorem history_removeReaders (n : NodeId) (ps : List (Handle × Key)) :
    (ps.foldl (fun w p => w.modifyReaders p.1 (·.remove p.2 n)) w).history = w.history := by
  induction ps generalizing w with
  | nil => rfl
  | cons p ps ih => exact (ih _).trans (history_modifyReaders w p.1 _)

@[simp] theorem history_clearedOf (n : NodeId) :
    (w.clearedOf n).history = .cleared n :: w.history :=
  history_removeReaders _ n _

@[simp] theorem history_taken (h : Handle) (key : Key) :
    (w.taken h key).history = .triggered h key :: w.history :=
  history_modifyReaders _ h _

@[simp] theorem history_pushContext (rt : RuntimeId) (reader : Option NodeId) :
    (w.pushContext rt reader).history = w.history := rfl

@[simp] theorem history_popContext (rt : RuntimeId) : (w.popContext rt).history = w.history := rfl

@[simp] theorem history_requested (rt : RuntimeId) :
    (w.requested rt).history = .requested rt :: w.history := by
  rw [requested]
  split <;> rfl

theorem history_queuedIn (rt : RuntimeId) (n : NodeId) :
    (w.queuedIn rt n).history = .queued rt n :: w.history ∨
      (w.queuedIn rt n).history = .requested rt :: .queued rt n :: w.history := by
  rw [queuedIn]
  split
  · exact .inl rfl
  · exact .inr (history_requested _ rt)

@[simp] theorem history_madeDirty (n : NodeId) : (w.madeDirty n).history = w.history := rfl

@[simp] theorem history_computing (n : NodeId) (rt : RuntimeId) :
    (w.computing n rt).history = .started n :: .cleared n :: w.history := by
  simp [computing]

@[simp] theorem history_computed (n : NodeId) (rt : RuntimeId) (r : Result) :
    (w.computed n rt r).history = .finished n :: w.history := rfl

@[simp] theorem history_gotBy (reader : Option NodeId) (n : NodeId) (r : Result) :
    (w.gotBy reader n r).history =
      .got n r :: ((reader.map (.saw · (.memo n) r)).toList ++ w.history) := by
  cases reader <;> rfl

@[simp] theorem history_running (n : NodeId) (rt : RuntimeId) :
    (w.running n rt).history = .started n :: .cleared n :: w.history := by
  simp [running]

@[simp] theorem history_stopped (n : NodeId) (rt : RuntimeId) :
    (w.stopped n rt).history = w.history := rfl

@[simp] theorem history_ran (n : NodeId) (rt : RuntimeId) :
    (w.ran n rt).history = .finished n :: w.history := rfl

@[simp] theorem history_disposing (n : NodeId) :
    (w.disposing n).history = .cleared n :: w.history := by
  simp [disposing]

@[simp] theorem history_passBegun (id : StoreId) :
    (w.passBegun id).history = .passBegan id :: w.history := rfl

@[simp] theorem history_passEnded (id : StoreId) (rt : RuntimeId) :
    (w.passEnded id rt).history = .passEnded id :: w.history := rfl

@[simp] theorem history_passPostponed (id : StoreId) :
    (w.passPostponed id).history = .passPostponed id :: w.history := rfl

@[simp] theorem history_callBegun (sub : SubscriptionId) (j : Json) :
    (w.callBegun sub j).history = .delivered sub j :: w.history := rfl

@[simp] theorem history_callEnded (sub : SubscriptionId) :
    (w.callEnded sub).history = .returned sub :: w.history := rfl

@[simp] theorem history_withSubscription (id : StoreId) (callback : Closure) :
    (w.withSubscription id callback).history = .subscribed w.subscriptions.size :: w.history := rfl

@[simp] theorem history_cancelled (sub : SubscriptionId) :
    (w.cancelled sub).history = .unsubscribed sub :: w.history := by
  simp only [cancelled]
  split <;> rfl

end World

theorem Edit.history {w w' : World} {write : Write} (he : Edit w write w') :
    w'.history = .wrote write :: w.history := by
  cases he <;> rfl

end Reactivity
