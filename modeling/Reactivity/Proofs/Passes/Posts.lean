import Reactivity.Proofs.Passes.Protocol
import Reactivity.Proofs.Registration.Listing
import Reactivity.Proofs.Registration.Separation

namespace Reactivity

/-- A store, its watcher, and the runtime of both. -/
structure Post where
  store : StoreId
  watcher : NodeId
  runtime : RuntimeId

def World.post (w : World) (id : StoreId) : Post where
  store := id
  watcher := (w.store id).watcher
  runtime := (w.store id).runtime

namespace Post

def seat? (p : Post) : Frame → Option Seat
  | .flushing rt => if rt = p.runtime then some .flush else none
  | .round rt batch => if rt = p.runtime then some (.round (batch.count p.watcher)) else none
  | .pending n => if n = p.watcher then some .turn else none
  | .created n => if n = p.watcher then some .first else none
  | .running n _ => if n = p.watcher then some .run else none
  | .watched n => if n = p.watcher then some .read else none
  | .notified n => if n = p.watcher then some .done else none
  | .passing id .. => if id = p.store then some .pass else none
  | .passed id => if id = p.store then some .passed else none
  | .telling _ nodes => if p.watcher ∈ nodes then some .telling else none
  | _ => none

def seats (p : Post) (g : List Frame) : List Seat :=
  g.filterMap p.seat?

def signal? (p : Post) (old : List Event) : Event → Option Signal
  | .passAsked id => if id = p.store then some .asked else none
  | .passBegan id => if id = p.store then some .began else none
  | .passEnded id => if id = p.store then some .ended else none
  | .roundBegan rt batch => if rt = p.runtime then some (.taken (batch.count p.watcher)) else none
  | .started n => if n = p.watcher then some .started else none
  | .flushEnded rt => if rt = p.runtime then some .flushed else none
  | .triggered h key =>
    if (sinceStart p.watcher old).any (·.tracks p.watcher h key) then some .noticed else none
  | _ => none

def signals (p : Post) (old : List Event) : List Event → List Signal
  | [] => []
  | e :: new => (p.signal? (new ++ old) e).toList ++ p.signals old new

def protocol (p : Post) (w : World) (g : List Frame) : Protocol where
  seats := p.seats g
  queued := (w.queue p.runtime).count p.watcher
  flushing := (w.runtime p.runtime).flushing
  running := w.isRunning p.watcher
  primed := (w.effect? p.watcher).any (·.job.isPrimed)
  notifying := (w.store p.store).notifying
  pending := (w.store p.store).pending
  past := p.signals [] w.history

section Signals

variable (p : Post) {old new : List Event} {e : Event}

theorem seats_cons (f : Frame) (g : List Frame) :
    p.seats (f :: g) = (p.seat? f).toList ++ p.seats g := by
  rw [seats, seats, List.filterMap_cons]
  cases p.seat? f <;> rfl

theorem signals_cons (old new : List Event) (e : Event) :
    p.signals old (e :: new) = (p.signal? (new ++ old) e).toList ++ p.signals old new := rfl

theorem signals_append (old new recent : List Event) :
    p.signals old (recent ++ new) = p.signals (new ++ old) recent ++ p.signals old new := by
  induction recent with
  | nil => rfl
  | cons e recent ih =>
    rw [List.cons_append, signals_cons, signals_cons, ih, List.append_assoc, List.append_assoc]

theorem mem_signals {s : Signal} : s ∈ p.signals old new ↔
    ∃ late e early, new = late ++ e :: early ∧ p.signal? (early ++ old) e = some s := by
  induction new with
  | nil => simp [signals]
  | cons e new ih =>
    rw [signals_cons, List.mem_append, Option.mem_toList, ih]
    constructor
    · rintro (hs | ⟨late, e', early, rfl, hs⟩)
      · exact ⟨[], e, new, rfl, hs⟩
      · exact ⟨e :: late, e', early, rfl, hs⟩
    · rintro ⟨_ | ⟨e', late⟩, e'', early, heq, hs⟩
      · obtain ⟨rfl, rfl⟩ := List.cons.inj heq
        exact .inl hs
      · obtain ⟨rfl, rfl⟩ := List.cons.inj heq
        exact .inr ⟨late, e'', early, rfl, hs⟩

end Signals

/-- `p.Overlooks w w'`: what has happened between the two states does not concern the store and its
watcher. -/
structure Overlooks (p : Post) (w w' : World) : Prop where
  queued : (w'.queue p.runtime).count p.watcher = (w.queue p.runtime).count p.watcher
  flushing : (w'.runtime p.runtime).flushing = (w.runtime p.runtime).flushing
  effect : (w'.effect? p.watcher).map (fun e => (e.running, e.job.isPrimed)) =
    (w.effect? p.watcher).map fun e => (e.running, e.job.isPrimed)
  store : (w'.store p.store).notifying = (w.store p.store).notifying ∧
    (w'.store p.store).pending = (w.store p.store).pending
  past : p.signals [] w'.history = p.signals [] w.history

namespace Overlooks

variable {p : Post} {w w' w'' : World}

theorem running (h : p.Overlooks w w') : w'.isRunning p.watcher = w.isRunning p.watcher := by
  have he := congrArg (·.any Prod.fst) h.effect
  simp only [Option.any_map] at he
  exact he

theorem primed (h : p.Overlooks w w') : (w'.effect? p.watcher).any (·.job.isPrimed) =
    (w.effect? p.watcher).any (·.job.isPrimed) := by
  have he := congrArg (·.any Prod.snd) h.effect
  simpa only [Option.any_map] using he

theorem isSome_effect? (h : p.Overlooks w w') (he : (w.effect? p.watcher).isSome) :
    (w'.effect? p.watcher).isSome := by
  have hs := congrArg Option.isSome h.effect
  rw [Option.isSome_map, Option.isSome_map] at hs
  exact hs.trans he

theorem protocol_eq (h : p.Overlooks w w') {g g' : List Frame} (hg : p.seats g' = p.seats g) :
    p.protocol w' g' = p.protocol w g := by
  simp only [protocol, hg, h.queued, h.flushing, h.running, h.primed, h.store.1, h.store.2, h.past]

theorem of_parts (hr : w'.runtimes = w.runtimes) (hn : w'.nodes = w.nodes)
    (hs : w'.stores = w.stores) (hh : p.signals [] w'.history = p.signals [] w.history) :
    p.Overlooks w w' where
  queued := by rw [World.queue, World.queue, World.runtime, World.runtime, hr]
  flushing := by rw [World.runtime, World.runtime, hr]
  effect := by rw [World.effect?, World.effect?, hn]
  store := by rw [World.store, World.store, hs]; exact ⟨rfl, rfl⟩
  past := hh

theorem refl (p : Post) (w : World) : p.Overlooks w w :=
  of_parts rfl rfl rfl rfl

theorem trans (h : p.Overlooks w w') (h' : p.Overlooks w' w'') : p.Overlooks w w'' where
  queued := h'.queued.trans h.queued
  flushing := h'.flushing.trans h.flushing
  effect := h'.effect.trans h.effect
  store := ⟨h'.store.1.trans h.store.1, h'.store.2.trans h.store.2⟩
  past := h'.past.trans h.past

variable (p w)

theorem note {e : Event} (he : p.signal? w.history e = none) : p.Overlooks w (w.note e) := by
  refine of_parts rfl rfl rfl ?_
  rw [World.history_note, signals_cons, List.append_nil, he]
  rfl

theorem modifyRuntime (rt : RuntimeId) {f : Runtime → Runtime}
    (hf : rt = p.runtime → ∀ r, (f r).queue.count p.watcher = r.queue.count p.watcher ∧
      (f r).flushing = r.flushing) : p.Overlooks w (w.modifyRuntime rt f) where
  queued := by
    rw [World.queue, World.queue, World.runtime_modifyRuntime]
    split
    · next h => exact (hf h.1 _).1
    · rfl
  flushing := by
    rw [World.runtime_modifyRuntime]
    split
    · next h => exact (hf h.1 _).2
    · rfl
  effect := rfl
  store := ⟨rfl, rfl⟩
  past := rfl

theorem pushContext (rt : RuntimeId) (reader : Option NodeId) :
    p.Overlooks w (w.pushContext rt reader) :=
  modifyRuntime p w rt fun _ _ => ⟨rfl, rfl⟩

theorem popContext (rt : RuntimeId) : p.Overlooks w (w.popContext rt) :=
  modifyRuntime p w rt fun _ _ => ⟨rfl, rfl⟩

theorem modifyEffect (n : NodeId) {f : Effect → Effect}
    (hf : n = p.watcher → ∀ e, (f e).running = e.running ∧ (f e).job.isPrimed = e.job.isPrimed) :
    p.Overlooks w (w.modifyEffect n f) where
  queued := rfl
  flushing := rfl
  effect := by
    rw [World.effect?_modifyEffect]
    split
    · next h =>
      rw [Option.map_map]
      exact Option.map_congr fun e _ => Prod.ext (hf h e).1 (hf h e).2
    · rfl
  store := ⟨rfl, rfl⟩
  past := rfl

theorem modifyMemo (n : NodeId) (f : Memo → Memo) : p.Overlooks w (w.modifyMemo n f) where
  queued := rfl
  flushing := rfl
  effect := by rw [World.effect?_modifyMemo]
  store := ⟨rfl, rfl⟩
  past := rfl

theorem modifyStore (id : StoreId) {f : Store → Store}
    (hf : id = p.store → ∀ s, (f s).notifying = s.notifying ∧ (f s).pending = s.pending) :
    p.Overlooks w (w.modifyStore id f) where
  queued := rfl
  flushing := rfl
  effect := rfl
  store := by
    rw [World.store_modifyStore]
    split
    · next h => exact hf h.1 _
    · exact ⟨rfl, rfl⟩
  past := rfl

theorem modifyReaders (h : Handle) (f : Readers → Readers) :
    p.Overlooks w (w.modifyReaders h f) := by
  cases h with
  | memo n => exact modifyMemo p w n _
  | _ => exact of_parts rfl rfl rfl rfl

theorem modifySources (n : NodeId) (f : List (Handle × Key) → List (Handle × Key)) :
    p.Overlooks w (w.modifySources n f) where
  queued := rfl
  flushing := rfl
  effect := by
    rw [World.effect?_modifySources]
    split
    · exact Option.map_map ..
    · rfl
  store := ⟨rfl, rfl⟩
  past := rfl

theorem pushNode {w : World} (old : p.watcher < w.nodes.size) (node : Node) :
    p.Overlooks w (w.pushNode node) where
  queued := rfl
  flushing := rfl
  effect := by rw [World.effect?_pushNode, if_neg (Nat.ne_of_lt old)]
  store := ⟨rfl, rfl⟩
  past := rfl

theorem withStore {w : World} (watcher : p.watcher < w.nodes.size) (store : p.store < w.stores.size)
    (state : ObjectId) : p.Overlooks w (w.withStore state) := by
  have hs : (w.withStore state).store p.store = w.store p.store :=
    (w.store_withStore state _).trans (if_neg (Nat.ne_of_lt store))
  have he : (w.withStore state).effect? p.watcher = w.effect? p.watcher :=
    (w.effect?_withStore state _).trans (if_neg (Nat.ne_of_lt watcher))
  exact ⟨rfl, rfl, by rw [he], by rw [hs]; exact ⟨rfl, rfl⟩, rfl⟩

theorem pushRuntime {w : World} (old : p.runtime < w.runtimes.size) (settings : Settings)
    (hook : Hook) : p.Overlooks w
      { w with runtimes := w.runtimes.push { settings := settings, hook := hook } } := by
  have hr : ({ w with runtimes := w.runtimes.push { settings := settings, hook := hook } } :
      World).runtime p.runtime = w.runtime p.runtime := by
    rw [World.runtime, World.runtime, Array.getElem?_push, if_neg (Nat.ne_of_lt old)]
  exact ⟨by rw [World.queue, World.queue, hr], by rw [hr], rfl, ⟨rfl, rfl⟩, rfl⟩

theorem trackedBy (n : NodeId) (h : Handle) (key : Key) : p.Overlooks w (w.trackedBy n h key) := by
  rw [World.trackedBy]
  have hn : p.Overlooks w (w.note (.tracked n h key)) := note p w rfl
  split
  · exact hn
  · exact hn.trans ((modifyReaders p _ h _).trans (modifySources p _ n _))

theorem trackedIn (rt : RuntimeId) (h : Handle) (key : Key) :
    p.Overlooks w (w.trackedIn rt h key) := by
  rw [World.trackedIn]
  split
  · exact refl p w
  · exact trackedBy p w _ h key

theorem removeReaders (n : NodeId) (ps : List (Handle × Key)) :
    p.Overlooks w (ps.foldl (fun w p => w.modifyReaders p.1 (·.remove p.2 n)) w) := by
  induction ps generalizing w with
  | nil => exact refl p w
  | cons q ps ih => exact (modifyReaders p w q.1 _).trans (ih _)

theorem clearedOf (n : NodeId) : p.Overlooks w (w.clearedOf n) :=
  (note p w rfl).trans ((modifySources p _ n _).trans (removeReaders p _ n _))

theorem requested (rt : RuntimeId) : p.Overlooks w (w.requested rt) := by
  have hr : p.Overlooks w ((w.modifyRuntime rt fun r => { r with flushRequested := true }).note
      (.requested rt)) := by
    refine .trans ?_ (note p _ rfl)
    exact modifyRuntime p w rt fun _ _ => ⟨rfl, rfl⟩
  rw [World.requested]
  split
  · exact hr
  · exact hr.trans (of_parts rfl rfl rfl rfl)
  · exact hr.trans (of_parts rfl rfl rfl rfl)
  · exact hr.trans (of_parts rfl rfl rfl rfl)

theorem queuedIn {rt : RuntimeId} {n : NodeId} (other : n ≠ p.watcher) :
    p.Overlooks w (w.queuedIn rt n) := by
  have hq : p.Overlooks w ((w.note (.queued rt n)).modifyRuntime rt fun r =>
      { r with queue := r.queue ++ [n] }) := by
    refine (note p w rfl).trans (modifyRuntime p _ rt fun _ r => ⟨?_, rfl⟩)
    rw [List.count_append, List.count_singleton, beq_eq_false_iff_ne.2 other]
    rfl
  rw [World.queuedIn_eq]
  split
  · exact hq
  · exact hq.trans (requested p _ rt)

theorem computed (n : NodeId) (rt : RuntimeId) (r : Result) : p.Overlooks w (w.computed n rt r) :=
  (popContext p w rt).trans ((note p _ rfl).trans (modifyMemo p _ n _))

theorem gotBy (reader : Option NodeId) (n : NodeId) (r : Result) :
    p.Overlooks w (w.gotBy reader n r) := by
  cases reader with
  | none => exact note p w rfl
  | some x => exact (note p w rfl).trans (note p _ rfl)

variable {n : NodeId} (other : n ≠ p.watcher)

include other in
theorem computing (rt : RuntimeId) : p.Overlooks w (w.computing n rt) :=
  (clearedOf p w n).trans ((modifyMemo p _ n _).trans ((pushContext p _ rt _).trans
    (note p _ (if_neg other))))

include other in
theorem starting (rt : RuntimeId) : p.Overlooks w (w.running n rt) :=
  (clearedOf p w n).trans ((pushContext p _ rt _).trans
    ((modifyEffect p _ n fun h => absurd h other).trans (note p _ (if_neg other))))

include other in
theorem ran (rt : RuntimeId) : p.Overlooks w (w.ran n rt) := by
  rw [World.ran]
  refine .trans ?_ (popContext p _ rt)
  refine .trans ?_ (modifyEffect p _ n fun h => absurd h other)
  exact (modifyEffect p w n fun h => absurd h other).trans (note p _ rfl)

theorem disposing (n : NodeId) : p.Overlooks w (w.disposing n) := by
  rw [World.disposing]
  refine .trans ?_ (clearedOf p _ n)
  exact modifyEffect p w n fun _ _ => ⟨rfl, rfl⟩

theorem cleaning (n : NodeId) (rt : RuntimeId) : p.Overlooks w (w.cleaning n rt) := by
  rw [World.cleaning]
  refine .trans ?_ (pushContext p _ rt none)
  exact modifyEffect p w n fun _ _ => ⟨rfl, rfl⟩

theorem withSubscription (id : StoreId) (callback : Closure) :
    p.Overlooks w (w.withSubscription id callback) := by
  rw [World.withSubscription]
  refine .trans ?_ (note p _ rfl)
  refine .trans ?_ (modifyStore p _ id fun _ _ => ⟨rfl, rfl⟩)
  exact of_parts rfl rfl rfl rfl

theorem cancelled (sub : SubscriptionId) : p.Overlooks w (w.cancelled sub) := by
  rw [World.cancelled]
  refine .trans ?_ (note p _ rfl)
  split
  · refine .trans ?_ (modifyStore p _ _ fun _ _ => ⟨rfl, rfl⟩)
    exact of_parts rfl rfl rfl rfl
  · exact of_parts rfl rfl rfl rfl

theorem callBegun (sub : SubscriptionId) (j : Json) : p.Overlooks w (w.callBegun sub j) :=
  (note p w rfl).trans (of_parts rfl rfl rfl rfl)

theorem callEnded (sub : SubscriptionId) : p.Overlooks w (w.callEnded sub) := by
  rw [World.callEnded]
  refine .trans ?_ (note p _ rfl)
  exact of_parts rfl rfl rfl rfl

variable {id : StoreId} (elsewhere : id ≠ p.store)

include elsewhere in
theorem passBegun : p.Overlooks w (w.passBegun id) := by
  rw [World.passBegun]
  refine .trans ?_ (pushContext p _ _ none)
  refine .trans ?_ (modifyStore p _ id fun h => absurd h elsewhere)
  exact note p w (e := .passBegan id) (if_neg elsewhere)

include elsewhere in
theorem passEnded (rt : RuntimeId) : p.Overlooks w (w.passEnded id rt) := by
  rw [World.passEnded]
  refine .trans ?_ (note p _ (e := .passEnded id) (if_neg elsewhere))
  exact (popContext p w rt).trans (modifyStore p _ id fun h => absurd h elsewhere)

include elsewhere in
theorem passPostponed : p.Overlooks w (w.passPostponed id) :=
  (note p w rfl).trans (modifyStore p _ id fun h => absurd h elsewhere)

end Overlooks

end Post

theorem Aside.overlooks {w w' : World} (h : Aside w w') (p : Post) : p.Overlooks w w' := by
  cases h with
  | bind _ _ _ => exact (Post.Overlooks.note p w rfl).trans (.of_parts rfl rfl rfl rfl)
  | unbind _ => exact (Post.Overlooks.note p w rfl).trans (.of_parts rfl rfl rfl rfl)
  | log _ | clearLog | external _ | task _ _ _ => exact .of_parts rfl rfl rfl rfl
  | hold id => exact .modifyStore p w id fun _ _ => ⟨rfl, rfl⟩
  | release id _ => exact .modifyStore p w id fun _ _ => ⟨rfl, rfl⟩
  | cancel _ _ => exact .cancelled p w _
  | _ => exact .note p w rfl

theorem Edit.overlooks {w w' : World} {write : Write} (h : Edit w write w') (p : Post) :
    p.Overlooks w w' := by
  have hn : p.Overlooks w (w.note (.wrote write)) := .note p w rfl
  cases h <;> exact hn.trans (.of_parts rfl rfl rfl rfl)

end Reactivity
