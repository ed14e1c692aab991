import Reactivity.Proofs.Run.Soundness

namespace Reactivity

def Event.isAboutSubscription : Event → Bool
  | .subscribed _ | .unsubscribed _ | .delivered .. => true
  | _ => false

def Event.subscribed? : Event → Option SubscriptionId
  | .subscribed sub => some sub
  | _ => none

def Job.watched? : Job → Option StoreId
  | .watchStore id _ => some id
  | _ => none

/-- The stores with their subscribers and holders, the subscriptions, the variables, the stores that
effects watch, and what has happened to subscriptions, newest first. -/
@[ext]
structure Desk where
  stores : Nat
  subscribers : StoreId → List SubscriptionId
  holders : StoreId → Nat
  subscriptions : Nat
  owner : SubscriptionId → StoreId
  active : SubscriptionId → Bool
  bindings : List (String × Binding)
  watches : NodeId → Option StoreId
  past : List Event

namespace World

variable (w : World)

def desk : Desk where
  stores := w.stores.size
  subscribers id := (w.store id).subscribers
  holders id := (w.store id).holders
  subscriptions := w.subscriptions.size
  owner sub := (w.subscription sub).store
  active sub := (w.subscription sub).active
  bindings := w.bindings
  watches n := (w.effect? n).bind (·.job.watched?)
  past := w.history.filter Event.isAboutSubscription

theorem desk_note (e : Event) :
    (w.note e).desk =
      { w.desk with past := [e].filter Event.isAboutSubscription ++ w.desk.past } := by
  refine Desk.ext rfl rfl rfl rfl rfl rfl rfl rfl ?_
  exact List.filter_append [e] w.history

theorem desk_note_of_eq {e : Event} (h : e.isAboutSubscription = false) :
    (w.note e).desk = w.desk := by
  rw [desk_note, List.filter_cons, h]
  rfl

theorem desk_modifyStore (id : StoreId) (f : Store → Store) :
    (w.modifyStore id f).desk =
      { w.desk with
        subscribers := fun j =>
          if id = j ∧ j < w.stores.size then (f (w.store j)).subscribers else (w.store j).subscribers
        holders := fun j =>
          if id = j ∧ j < w.stores.size then (f (w.store j)).holders else (w.store j).holders } := by
  have h (j : StoreId) := w.store_modifyStore id j f
  refine Desk.ext Array.size_modify (funext fun j => ?_) (funext fun j => ?_) rfl rfl rfl rfl rfl rfl
  · exact (congrArg Store.subscribers (h j)).trans (apply_ite ..)
  · exact (congrArg Store.holders (h j)).trans (apply_ite ..)

theorem desk_modifyStore_of_eq (id : StoreId) {f : Store → Store}
    (hs : ∀ s, (f s).subscribers = s.subscribers) (hh : ∀ s, (f s).holders = s.holders) :
    (w.modifyStore id f).desk = w.desk := by
  simp only [desk_modifyStore, hs, hh, ite_self]
  rfl

theorem desk_modifySubscription (sub : SubscriptionId) (f : Subscription → Subscription) :
    (w.modifySubscription sub f).desk =
      { w.desk with
        owner := fun x =>
          if sub = x ∧ x < w.subscriptions.size then (f (w.subscription x)).store
          else (w.subscription x).store
        active := fun x =>
          if sub = x ∧ x < w.subscriptions.size then (f (w.subscription x)).active
          else (w.subscription x).active } := by
  have h (x : SubscriptionId) := w.subscription_modifySubscription sub x f
  refine Desk.ext rfl rfl rfl Array.size_modify (funext fun x => ?_) (funext fun x => ?_) rfl rfl rfl
  · exact (congrArg Subscription.store (h x)).trans (apply_ite ..)
  · exact (congrArg Subscription.active (h x)).trans (apply_ite ..)

theorem desk_modifySubscription_of_eq (sub : SubscriptionId) {f : Subscription → Subscription}
    (hs : ∀ s, (f s).store = s.store) (ha : ∀ s, (f s).active = s.active) :
    (w.modifySubscription sub f).desk = w.desk := by
  simp only [desk_modifySubscription, hs, ha, ite_self]
  rfl

theorem desk_of_watches {w' : World} {watches : NodeId → Option StoreId} (hs : w'.stores = w.stores)
    (hsub : w'.subscriptions = w.subscriptions) (hb : w'.bindings = w.bindings)
    (hh : w'.history = w.history)
    (hw : ∀ n, (w'.effect? n).bind (·.job.watched?) = watches n) :
    w'.desk = { w.desk with watches := watches } := by
  simp only [desk, store, subscription, hs, hsub, hb, hh, hw]

theorem desk_modifyEffect (n : NodeId) (f : Effect → Effect) :
    (w.modifyEffect n f).desk =
      { w.desk with
        watches := fun m =>
          if n = m then (w.effect? m).bind fun e => (f e).job.watched? else w.desk.watches m } := by
  refine w.desk_of_watches rfl rfl rfl rfl fun m => ?_
  rw [effect?_modifyEffect]
  split
  · exact Option.bind_map
  · rfl

theorem desk_modifyEffect_of_eq (n : NodeId) {f : Effect → Effect} (hf : ∀ e, (f e).job = e.job) :
    (w.modifyEffect n f).desk = w.desk := by
  simp only [desk_modifyEffect, hf]
  exact Desk.ext rfl rfl rfl rfl rfl rfl rfl (funext fun m => ite_self _) rfl

theorem desk_modifyMemo (n : NodeId) (f : Memo → Memo) : (w.modifyMemo n f).desk = w.desk :=
  w.desk_of_watches rfl rfl rfl rfl fun m => by rw [effect?_modifyMemo]

theorem desk_modifySources (n : NodeId) (f : List (Handle × Key) → List (Handle × Key)) :
    (w.modifySources n f).desk = w.desk := by
  refine w.desk_of_watches rfl rfl rfl rfl fun m => ?_
  rw [effect?_modifySources]
  split
  · exact Option.bind_map
  · rfl

theorem desk_pushEffect (e : Effect) :
    (w.pushNode (.effect e)).desk =
      { w.desk with
        watches := fun n => if n = w.nodes.size then e.job.watched? else w.desk.watches n } := by
  refine w.desk_of_watches rfl rfl rfl rfl fun n => ?_
  rw [effect?_pushNode]
  dsimp only
  split <;> rfl

theorem desk_pushMemo (m : Memo) : (w.pushNode (.memo m)).desk = w.desk := by
  refine w.desk_of_watches rfl rfl rfl rfl fun n => ?_
  rw [effect?_pushNode]
  split
  · next hn =>
    subst hn
    simp [effect?]
  · rfl

theorem desk_modifyReaders (h : Handle) (f : Readers → Readers) :
    (w.modifyReaders h f).desk = w.desk := by
  cases h with
  | memo n => exact w.desk_modifyMemo n _
  | _ => rfl

theorem desk_removeReaders (n : NodeId) (ps : List (Handle × Key)) :
    (ps.foldl (fun w (h, key) => w.modifyReaders h (·.remove key n)) w).desk = w.desk := by
  induction ps generalizing w with
  | nil => rfl
  | cons p ps ih => exact (ih _).trans (w.desk_modifyReaders p.1 _)

end World

/-- The change does not concern subscriptions. -/
structure Change.LeavesDesk (c : Change α) : Prop where
  desk : ∀ w, (c.run w).2.desk = w.desk

namespace Change.LeavesDesk

variable {α β : Type}

theorem pure (a : α) : LeavesDesk (Pure.pure a) := ⟨fun _ => rfl⟩

theorem bind {c : Change α} {f : α → Change β} (h : LeavesDesk c) (hf : ∀ a, LeavesDesk (f a)) :
    LeavesDesk (c >>= f) :=
  ⟨fun w => ((hf _).desk _).trans (h.desk w)⟩

theorem get_bind {f : World → Change α} (h : ∀ w, LeavesDesk (f w)) : LeavesDesk (get >>= f) :=
  ⟨fun w => (h w).desk w⟩

theorem modify {f : World → World} (h : ∀ w, (f w).desk = w.desk) :
    LeavesDesk (modify f : Change Unit) :=
  ⟨h⟩

theorem note {e : Event} (h : e.isAboutSubscription = false) : LeavesDesk (note e) :=
  ⟨fun w => w.desk_note_of_eq h⟩

theorem mapM {f : α → Change β} (h : ∀ a, LeavesDesk (f a)) (xs : List α) :
    LeavesDesk (xs.mapM f) := by
  induction xs with
  | nil => exact .pure _
  | cons x xs ih =>
    rw [List.mapM_cons]
    exact .bind (h x) fun _ => .bind ih fun _ => .pure _

theorem forM {f : α → Change Unit} (h : ∀ a, LeavesDesk (f a)) (xs : List α) :
    LeavesDesk (xs.forM f) := by
  induction xs with
  | nil => exact .pure _
  | cons x xs ih =>
    rw [List.forM_eq_forM, List.forM_cons]
    exact .bind (h x) fun _ => ih

end Change.LeavesDesk

open Change

theorem leavesDesk_track (rt : RuntimeId) (h : Handle) (key : Key) :
    LeavesDesk (track rt h key) := by
  rw [track]
  refine .get_bind fun w => ?_
  cases w.currentReader rt with
  | none => exact .pure _
  | some n =>
    refine .bind (.note rfl) fun _ => ?_
    split
    · exact .pure _
    · exact .modify fun w => (World.desk_modifySources _ n _).trans (w.desk_modifyReaders h _)

theorem leavesDesk_noteRead (rt : RuntimeId) (read : Read) (r : Result) :
    LeavesDesk (noteRead rt read r) := by
  rw [noteRead]
  refine .get_bind fun w => ?_
  cases w.currentReader rt with
  | none => exact .pure _
  | some n => exact .note rfl

theorem leavesDesk_clearSources (n : NodeId) : LeavesDesk (clearSources n) :=
  .bind (.note rfl) fun _ => .modify fun w =>
    (World.desk_removeReaders _ n _).trans (w.desk_modifySources n _)

theorem leavesDesk_takeReaders (h : Handle) (key : Key) : LeavesDesk (takeReaders h key) :=
  ⟨fun w => w.desk_modifyReaders h _⟩

theorem leavesDesk_retire (n : NodeId) : LeavesDesk (retire n) := by
  rw [retire]
  refine .get_bind fun w => ?_
  split
  · exact .pure _
  · refine .bind (.modify fun w => ?_) fun _ => .bind (leavesDesk_clearSources n) fun _ => .note rfl
    exact w.desk_modifyEffect_of_eq n fun _ => rfl

theorem leavesDesk_createMemo (rt : RuntimeId) (body : Closure) : LeavesDesk (createMemo rt body) :=
  ⟨fun w => w.desk_pushMemo _⟩

theorem leavesDesk_registerCleanup (rt : RuntimeId) (c : Closure) :
    LeavesDesk (registerCleanup rt c) := by
  rw [registerCleanup]
  refine .get_bind fun w => ?_
  cases w.currentReader rt with
  | none => exact .pure _
  | some n =>
    dsimp only
    cases w.effect? n with
    | none => exact .pure _
    | some e =>
      dsimp only
      split
      · exact .pure _
      · refine .bind (.note rfl) fun _ => .bind (.modify fun w => ?_) fun _ => .pure _
        exact w.desk_modifyEffect_of_eq n fun _ => rfl

theorem leavesDesk_wrap (rt : RuntimeId) (j : Json) : LeavesDesk (wrap rt j) := by
  cases j with
  | object members => exact .bind (.note rfl) fun _ => ⟨fun _ => rfl⟩
  | array items => exact .bind (.note rfl) fun _ => ⟨fun _ => rfl⟩
  | _ => exact .pure _

theorem leavesDesk_cellToValue (rt : RuntimeId) (c : Cell) : LeavesDesk (c.toValue rt) := by
  cases c with
  | value v => exact .pure _
  | plain j => exact leavesDesk_wrap rt j

theorem leavesDesk_resultToValue (rt : RuntimeId) (r : Result) : LeavesDesk (r.toValue rt) := by
  cases r with
  | plain j => exact leavesDesk_wrap rt j
  | _ => exact .pure _

namespace ObjectId

variable (id : ObjectId)

theorem leavesDesk_peek (name : String) : LeavesDesk (id.peek name) := by
  rw [peek]
  refine .get_bind fun w => ?_
  dsimp only
  split
  · exact .pure _
  · exact .pure _
  · exact .bind (leavesDesk_wrap _ _) fun _ => .bind (.modify fun _ => rfl) fun _ => .pure _

theorem leavesDesk_read (name : String) : LeavesDesk (id.read name) :=
  .get_bind fun _ => .bind (leavesDesk_track ..) fun _ => .bind (id.leavesDesk_peek name) fun _ =>
    .bind (leavesDesk_noteRead ..) fun _ => .pure _

theorem leavesDesk_contains (name : String) : LeavesDesk (id.contains name) :=
  .get_bind fun _ => .bind (leavesDesk_track ..) fun _ => .get_bind fun _ =>
    .bind (leavesDesk_noteRead ..) fun _ => .pure _

theorem leavesDesk_keys : LeavesDesk id.keys :=
  .get_bind fun _ => .bind (leavesDesk_track ..) fun _ => .get_bind fun _ =>
    .bind (leavesDesk_noteRead ..) fun _ => .pure _

theorem leavesDesk_length : LeavesDesk id.length :=
  .get_bind fun _ => .bind (leavesDesk_track ..) fun _ => .get_bind fun _ =>
    .bind (leavesDesk_noteRead ..) fun _ => .pure _

theorem leavesDesk_entries : LeavesDesk id.entries :=
  .get_bind fun _ => .bind (leavesDesk_track ..) fun _ =>
    .bind (.mapM (fun _ => .bind (leavesDesk_cellToValue ..) fun _ => .pure _) _) fun _ =>
      .bind (.modify fun _ => rfl) fun _ => .bind (.forM (fun _ => leavesDesk_track ..) _) fun _ =>
        .bind (leavesDesk_noteRead ..) fun _ => .pure _

end ObjectId

namespace ArrayId

variable (id : ArrayId)

theorem leavesDesk_peek (i : Nat) : LeavesDesk (id.peek i) := by
  rw [peek]
  refine .get_bind fun w => ?_
  dsimp only
  split
  · exact .pure _
  · exact .pure _
  · exact .bind (leavesDesk_wrap _ _) fun _ => .bind (.modify fun _ => rfl) fun _ => .pure _

theorem leavesDesk_read (i : Nat) : LeavesDesk (id.read i) :=
  .get_bind fun _ => .bind (leavesDesk_track ..) fun _ => .bind (id.leavesDesk_peek i) fun _ =>
    .bind (leavesDesk_noteRead ..) fun _ => .pure _

theorem leavesDesk_length : LeavesDesk id.length :=
  .get_bind fun _ => .bind (leavesDesk_track ..) fun _ => .get_bind fun _ =>
    .bind (leavesDesk_noteRead ..) fun _ => .pure _

theorem leavesDesk_contents : LeavesDesk id.contents :=
  .get_bind fun _ => .bind (.mapM (fun _ => leavesDesk_cellToValue ..) _) fun _ =>
    .bind (.modify fun _ => rfl) fun _ => .pure _

theorem leavesDesk_values : LeavesDesk id.values :=
  .get_bind fun _ => .bind (leavesDesk_track ..) fun _ => .bind id.leavesDesk_contents fun _ =>
    .bind (.forM (fun _ => leavesDesk_track ..) _) fun _ =>
      .bind (leavesDesk_noteRead ..) fun _ => .pure _

end ArrayId

theorem leavesDesk_serializeAt (depth : Nat) (v : Value) : LeavesDesk (serializeAt depth v) := by
  induction depth generalizing v with
  | zero => cases v <;> exact .pure _
  | succ depth ih =>
    cases v with
    | object id =>
      exact .bind id.leavesDesk_entries fun _ =>
        .bind (.mapM (fun _ => .bind (ih _) fun _ => .pure _) _) fun _ => .pure _
    | array id => exact .bind id.leavesDesk_values fun _ => .bind (.mapM ih _) fun _ => .pure _
    | _ => exact .pure _

theorem leavesDesk_serialize (v : Value) : LeavesDesk (serialize v) :=
  .get_bind fun _ => leavesDesk_serializeAt _ v

theorem leavesDesk_readStep (tracked : Bool) (target key : Result) :
    LeavesDesk (readStep tracked target key) := by
  rw [readStep.eq_def]
  split
  · cases tracked
    · exact .bind (ObjectId.leavesDesk_peek ..) fun _ => .pure _
    · exact .bind (ObjectId.leavesDesk_read ..) fun _ => .pure _
  · cases tracked
    · exact .bind (ArrayId.leavesDesk_peek ..) fun _ => .pure _
    · exact .bind (ArrayId.leavesDesk_read ..) fun _ => .pure _
  · exact .pure _

theorem leavesDesk_report (op : ContainerOp) (h : Handle) (args : List Result) :
    LeavesDesk (op.report h args) := by
  cases op <;> exact .get_bind fun _ => .pure _

end Reactivity
