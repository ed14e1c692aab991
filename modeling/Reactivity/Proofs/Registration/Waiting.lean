import Reactivity.Proofs.Registration.Mirroring
import Reactivity.Proofs.Updates.Keeping

namespace Reactivity

def waiting (rt : RuntimeId) : List Event → List NodeId
  | [] => []
  | e :: old =>
    match e with
    | .queued rt' n => if rt' = rt then waiting rt old ++ [n] else waiting rt old
    | .roundBegan rt' _ | .gaveUp rt' => if rt' = rt then [] else waiting rt old
    | _ => waiting rt old

/-- The effects that the flush of a runtime that is under way has taken from the queue, and whose
functions have not been started since. -/
def due (rt : RuntimeId) : List Event → List NodeId
  | [] => []
  | e :: old =>
    match e with
    | .roundBegan rt' batch => if rt' = rt then batch ++ due rt old else due rt old
    | .started n => (due rt old).filter (· != n)
    | .flushEnded rt' => if rt' = rt then [] else due rt old
    | _ => due rt old

def Event.Schedules : Event → Prop
  | .queued .. | .roundBegan .. | .gaveUp _ | .flushEnded _ => True
  | _ => False

/-- The event says that the function of the node was started, or that the node was registered on
something or taken from everything. -/
def Event.Touches (n : NodeId) : Event → Prop
  | .started m | .cleared m | .tracked m .. => m = n
  | _ => False

section History

variable {rt : RuntimeId} {n : NodeId} {new old : List Event}

theorem waiting_append (h : ∀ e ∈ new, ¬ e.Schedules) : waiting rt (new ++ old) = waiting rt old := by
  induction new with
  | nil => rfl
  | cons e new ih =>
    rw [List.forall_mem_cons] at h
    rw [← ih h.2]
    cases e <;> first | rfl | exact absurd trivial h.1

theorem mem_due_append (hs : ∀ e ∈ new, ¬ e.Schedules) (ht : ∀ e ∈ new, ¬ e.Touches n)
    (h : n ∈ due rt old) : n ∈ due rt (new ++ old) := by
  induction new with
  | nil => exact h
  | cons e new ih =>
    rw [List.forall_mem_cons] at hs ht
    have ih := ih hs.2 ht.2
    cases e with
    | started m =>
      refine List.mem_filter.2 ⟨ih, ?_⟩
      have hmn : n ≠ m := fun hmn => ht.1 hmn.symm
      simpa using hmn
    | queued rt' m => exact absurd trivial hs.1
    | roundBegan rt' batch => exact absurd trivial hs.1
    | gaveUp rt' => exact absurd trivial hs.1
    | flushEnded rt' => exact absurd trivial hs.1
    | _ => exact ih

end History

namespace World

theorem queue_congr {w w' : World} (h : w'.runtimes = w.runtimes) (rt : RuntimeId) :
    w'.queue rt = w.queue rt := by
  rw [queue, queue, runtime, runtime, h]

theorem queue_queuedIn (w : World) (rt j : RuntimeId) (n : NodeId) :
    (w.queuedIn rt n).queue j =
      if rt = j ∧ j < w.runtimes.size then w.queue j ++ [n] else w.queue j := by
  have h : ((w.note (.queued rt n)).modifyRuntime rt fun r =>
      { r with queue := r.queue ++ [n] }).queue j =
        if rt = j ∧ j < w.runtimes.size then w.queue j ++ [n] else w.queue j := by
    rw [queue, runtime_modifyRuntime]
    split
    · next hj => exact (if_pos hj).symm
    · next hj => exact (if_neg hj).symm
  rw [queuedIn]
  split
  · exact h
  · rw [← h, requested]
    have hr := queue_modifyRuntime ((w.note (.queued rt n)).modifyRuntime rt fun r =>
      { r with queue := r.queue ++ [n] }) rt j (f := fun r => { r with flushRequested := true })
        fun _ => rfl
    split <;> exact hr

/-- `w.Ordinary n w'`: no effect is queued or taken from the queue, and the node is neither started
nor registered on anything nor taken from anything. -/
structure Ordinary (w : World) (n : NodeId) (w' : World) : Prop where
  spares : w.Spares n w'
  queue : ∀ rt, w'.queue rt = w.queue rt
  past : ∃ new, w'.history = new ++ w.history ∧ ∀ e ∈ new, ¬ e.Schedules ∧ ¬ e.Touches n

namespace Ordinary

variable {w w' w'' : World} {n : NodeId}

theorem of_spares (hs : w.Spares n w') (hq : ∀ rt, w'.queue rt = w.queue rt)
    (hh : w'.history = w.history) : w.Ordinary n w' :=
  ⟨hs, hq, [], hh, by simp⟩

theorem of_eq (hn : w'.nodes = w.nodes) (ho : w'.objects = w.objects)
    (ha : w'.arrays = w.arrays) (hq : ∀ rt, w'.queue rt = w.queue rt)
    (hh : w'.history = w.history) : w.Ordinary n w' where
  spares := {
    disposed := fun h => by rwa [isDisposed, effect?, hn]
    dirty := fun h => by rwa [isDirty, memo?, hn]
    queued := fun rt h => by rwa [hq]
    registered := fun h key hk => by
      cases h with
      | object id => rwa [readers, object, ho]
      | array id => rwa [readers, array, ha]
      | memo m => rwa [readers, memo?, hn] }
  queue := hq
  past := ⟨[], hh, by simp⟩

theorem refl (w : World) (n : NodeId) : w.Ordinary n w :=
  of_spares (.refl w n) (fun _ => rfl) rfl

theorem trans (h : w.Ordinary n w') (h' : w'.Ordinary n w'') : w.Ordinary n w'' where
  spares := h.spares.trans h'.spares
  queue rt := (h'.queue rt).trans (h.queue rt)
  past := by
    obtain ⟨new, hn, he⟩ := h.past
    obtain ⟨new', hn', he'⟩ := h'.past
    refine ⟨new' ++ new, by rw [hn', hn, List.append_assoc], fun e hm => ?_⟩
    exact (List.mem_append.1 hm).elim (he' e) (he e)

theorem note (w : World) {e : Event} (hs : ¬ e.Schedules) (ht : ¬ e.Touches n) :
    w.Ordinary n (w.note e) where
  spares := .note w e
  queue _ := rfl
  past := ⟨[e], rfl, fun _ hm => List.mem_singleton.1 hm ▸ ⟨hs, ht⟩⟩

theorem modifyRuntime (w : World) (rt : RuntimeId) {f : Runtime → Runtime}
    (hf : ∀ r, (f r).queue = r.queue) : w.Ordinary n (w.modifyRuntime rt f) :=
  of_eq rfl rfl rfl (fun j => w.queue_modifyRuntime rt j hf) rfl

theorem modifyObject (w : World) (id : ObjectId) {f : ObjectState → ObjectState}
    (hf : ∀ o, (f o).readers = o.readers) : w.Ordinary n (w.modifyObject id f) :=
  of_spares (.modifyObject w id hf) (fun _ => rfl) rfl

theorem modifyArray (w : World) (id : ArrayId) {f : ArrayState → ArrayState}
    (hf : ∀ a, (f a).readers = a.readers) : w.Ordinary n (w.modifyArray id f) :=
  of_spares (.modifyArray w id hf) (fun _ => rfl) rfl

theorem modifyEffect (w : World) (m : NodeId) {f : Effect → Effect}
    (hf : ∀ e, e.disposed → (f e).disposed) : w.Ordinary n (w.modifyEffect m f) :=
  of_spares (.modifyEffect w m hf) (fun _ => rfl) rfl

theorem pushNode (w : World) (node : Node) : w.Ordinary n (w.pushNode node) :=
  of_spares (.pushNode w node) (fun _ => rfl) rfl

theorem pushObject (w : World) (o : ObjectState) :
    w.Ordinary n { w with objects := w.objects.push o } :=
  of_spares ((Unnoticed.pushObject w o).spares n) (fun _ => rfl) rfl

theorem pushArray (w : World) (a : ArrayState) :
    w.Ordinary n { w with arrays := w.arrays.push a } :=
  of_spares ((Unnoticed.pushArray w a).spares n) (fun _ => rfl) rfl

theorem pushRuntime (w : World) {r : Runtime} (hr : r.queue = []) :
    w.Ordinary n { w with runtimes := w.runtimes.push r } := by
  refine of_spares ((Unnoticed.pushRuntime w r).spares n) (fun rt => ?_) rfl
  simp only [World.queue, runtime, Array.getElem?_push]
  split
  · next h => simp [h, hr]; rfl
  · rfl

theorem clearedOf (w : World) {m : NodeId} (hmn : m ≠ n) : w.Ordinary n (w.clearedOf m) where
  spares := .clearedOf w hmn
  queue := queue_congr (runtimes_clearedOf w m)
  past := ⟨[.cleared m], history_clearedOf w m, by simp [Event.Schedules, Event.Touches, hmn]⟩

theorem madeDirty (w : World) (m : NodeId) : w.Ordinary n (w.madeDirty m) :=
  of_spares (.madeDirty w m) (fun _ => rfl) rfl

theorem computing (w : World) {m : NodeId} (hmn : m ≠ n) (rt : RuntimeId) :
    w.Ordinary n (w.computing m rt) where
  spares := .computing w hmn rt
  queue j := by
    have hc := queue_congr (runtimes_clearedOf w m) j
    exact (queue_modifyRuntime _ rt j (f := fun r => { r with context := some m :: r.context })
      fun _ => rfl).trans hc
  past := ⟨[.started m, .cleared m], history_computing w m rt,
    by simp [Event.Schedules, Event.Touches, hmn]⟩

theorem computed (w : World) (m : NodeId) (rt : RuntimeId) (r : Result) :
    w.Ordinary n (w.computed m rt r) where
  spares := .computed w m rt r
  queue j := w.queue_modifyRuntime rt j (f := fun r => { r with context := r.context.tail })
    fun _ => rfl
  past := ⟨[.finished m], history_computed w m rt r, by simp [Event.Schedules, Event.Touches]⟩

theorem gotBy (w : World) (reader : Option NodeId) (m : NodeId) (r : Result) :
    w.Ordinary n (w.gotBy reader m r) := by
  cases reader with
  | none => exact note w id id
  | some x => exact (note w id id).trans (note _ id id)

theorem running (w : World) {m : NodeId} (hmn : m ≠ n) (rt : RuntimeId) :
    w.Ordinary n (w.running m rt) where
  spares := .running w hmn rt
  queue j := by
    have hc := queue_congr (runtimes_clearedOf w m) j
    exact (queue_modifyRuntime _ rt j (f := fun r => { r with context := some m :: r.context })
      fun _ => rfl).trans hc
  past := ⟨[.started m, .cleared m], history_running w m rt,
    by simp [Event.Schedules, Event.Touches, hmn]⟩

theorem stopped (w : World) (m : NodeId) (rt : RuntimeId) : w.Ordinary n (w.stopped m rt) where
  spares := .stopped w m rt
  queue j := (w.modifyEffect m fun e => { e with running := false }).queue_modifyRuntime rt j
    (f := fun r => { r with context := r.context.tail }) fun _ => rfl
  past := ⟨[], history_stopped w m rt, by simp⟩

theorem ran (w : World) (m : NodeId) (rt : RuntimeId) : w.Ordinary n (w.ran m rt) where
  spares := .ran w m rt
  queue j := w.queue_modifyRuntime rt j (f := fun r => { r with context := r.context.tail })
    fun _ => rfl
  past := ⟨[.finished m], history_ran w m rt, by simp [Event.Schedules, Event.Touches]⟩

theorem disposing (w : World) {m : NodeId} (hmn : m ≠ n) : w.Ordinary n (w.disposing m) where
  spares := .disposing w hmn
  queue := queue_congr (runtimes_disposing w m)
  past := ⟨[.cleared m], history_disposing w m, by simp [Event.Schedules, Event.Touches, hmn]⟩

theorem withStore (w : World) (state : ObjectId) : w.Ordinary n (w.withStore state) :=
  of_spares (.withStore w state) (fun _ => rfl) rfl

theorem cleaning (w : World) (m : NodeId) (rt : RuntimeId) : w.Ordinary n (w.cleaning m rt) := by
  rw [World.cleaning]
  refine trans ?_ (modifyRuntime _ rt fun _ => rfl)
  exact modifyEffect w m fun _ => id

theorem passBegun (w : World) (id : StoreId) : w.Ordinary n (w.passBegun id) := by
  rw [World.passBegun]
  refine trans ?_ (modifyRuntime _ _ fun _ => rfl)
  exact (note w (e := .passBegan id) (fun h => h) fun h => h).trans
    (of_eq rfl rfl rfl (fun _ => rfl) rfl)

theorem passEnded (w : World) (id : StoreId) (rt : RuntimeId) :
    w.Ordinary n (w.passEnded id rt) := by
  rw [World.passEnded]
  refine trans ?_ (note _ (fun h => h) fun h => h)
  refine trans ?_ (of_eq (w := w.popContext rt) rfl rfl rfl (fun _ => rfl) rfl)
  exact modifyRuntime _ _ fun _ => rfl

theorem passPostponed (w : World) (id : StoreId) : w.Ordinary n (w.passPostponed id) := by
  rw [World.passPostponed]
  exact (note w (e := .passPostponed id) (fun h => h) fun h => h).trans
    (of_eq rfl rfl rfl (fun _ => rfl) rfl)

theorem callBegun (w : World) (sub : SubscriptionId) (j : Json) :
    w.Ordinary n (w.callBegun sub j) := by
  rw [World.callBegun]
  exact (note w (e := .delivered sub j) (fun h => h) fun h => h).trans
    (of_eq rfl rfl rfl (fun _ => rfl) rfl)

theorem callEnded (w : World) (sub : SubscriptionId) : w.Ordinary n (w.callEnded sub) := by
  rw [World.callEnded]
  refine trans ?_ (note _ (fun h => h) fun h => h)
  exact of_eq rfl rfl rfl (fun _ => rfl) rfl

theorem withSubscription (w : World) (id : StoreId) (callback : Closure) :
    w.Ordinary n (w.withSubscription id callback) :=
  (note w (e := .subscribed _) (fun h => h) fun h => h).trans (of_eq rfl rfl rfl (fun _ => rfl) rfl)

end Ordinary

end World

theorem Aside.ordinary {w w' : World} (h : Aside w w') (n : NodeId) : w.Ordinary n w' := by
  cases h with
  | bind name b valid => exact (World.Ordinary.note w id id).trans (.of_eq rfl rfl rfl (fun _ => rfl) rfl)
  | unbind name => exact (World.Ordinary.note w id id).trans (.of_eq rfl rfl rfl (fun _ => rfl) rfl)
  | log r => exact .of_eq rfl rfl rfl (fun _ => rfl) rfl
  | clearLog => exact .of_eq rfl rfl rfl (fun _ => rfl) rfl
  | external content => exact .of_eq rfl rfl rfl (fun _ => rfl) rfl
  | task rt tasks h => exact .of_eq rfl rfl rfl (fun _ => rfl) rfl
  | hold _ => exact .of_eq rfl rfl rfl (fun _ => rfl) rfl
  | release _ _ => exact .of_eq rfl rfl rfl (fun _ => rfl) rfl
  | cancel sub _ =>
    obtain ⟨_, _, h⟩ := w.cancelled_eq sub
    rw [h]
    exact (World.Ordinary.note w id id).trans (.of_eq rfl rfl rfl (fun _ => rfl) rfl)
  | _ => exact .note w id id

theorem Edit.ordinary {w w' : World} {write : Write} (h : Edit w write w') (n : NodeId) :
    w.Ordinary n w' := by
  have hn : w.Ordinary n (w.note (.wrote write)) := .note w id id
  cases h with
  | setProperty => exact hn.trans (.modifyObject _ _ fun _ => rfl)
  | addProperty => exact hn.trans (.modifyObject _ _ fun _ => rfl)
  | removeProperty => exact hn.trans (.modifyObject _ _ fun _ => rfl)
  | setSlot => exact hn.trans (.modifyArray _ _ fun _ => rfl)
  | addSlot => exact hn.trans (.modifyArray _ _ fun _ => rfl)

end Reactivity
