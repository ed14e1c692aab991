import Reactivity.Proofs.Registration.Waiting
import Mathlib

namespace Reactivity

/-- How often the hook of a runtime has been asked for a flush since the latest one began. -/
def asked (rt : RuntimeId) : List Event → Nat
  | [] => 0
  | e :: old =>
    match e with
    | .requested rt' => if rt' = rt then asked rt old + 1 else asked rt old
    | .flushBegan rt' => if rt' = rt then 0 else asked rt old
    | _ => asked rt old

def BrokenOff (rt : RuntimeId) : List Event → Prop
  | [] => False
  | e :: old =>
    match e with
    | .threw _ | .exhausted => True
    | .flushBegan rt' => rt' ≠ rt ∧ BrokenOff rt old
    | _ => BrokenOff rt old

/-- Something was thrown in the latest flush of a runtime that has ended. -/
def FlushBroken (rt : RuntimeId) : List Event → Prop
  | [] => False
  | e :: old =>
    match e with
    | .flushEnded rt' => if rt' = rt then BrokenOff rt old else FlushBroken rt old
    | _ => FlushBroken rt old

/-- The event says that the hook of a runtime was asked for a flush, or that one began or ended. -/
def Event.Flushes (rt : RuntimeId) : Event → Prop
  | .requested rt' | .flushBegan rt' | .flushEnded rt' => rt' = rt
  | _ => False

section History

variable {rt : RuntimeId} {new old : List Event}

theorem asked_append (h : ∀ e ∈ new, ¬ e.Flushes rt) : asked rt (new ++ old) = asked rt old := by
  induction new with
  | nil => rfl
  | cons e new ih =>
    rw [List.forall_mem_cons] at h
    rw [← ih h.2]
    cases e <;> first | rfl | exact if_neg h.1

theorem BrokenOff.append (h : ∀ e ∈ new, ¬ e.Flushes rt) (hb : BrokenOff rt old) :
    BrokenOff rt (new ++ old) := by
  induction new with
  | nil => exact hb
  | cons e new ih =>
    rw [List.forall_mem_cons] at h
    have ih := ih h.2
    cases e <;> first | exact ih | exact trivial | exact ⟨h.1, ih⟩

theorem FlushBroken.append (h : ∀ e ∈ new, ¬ e.Flushes rt) (hb : FlushBroken rt old) :
    FlushBroken rt (new ++ old) := by
  induction new with
  | nil => exact hb
  | cons e new ih =>
    rw [List.forall_mem_cons] at h
    have ih := ih h.2
    cases e with
    | flushEnded rt' =>
      show if rt' = rt then BrokenOff rt (new ++ old) else FlushBroken rt (new ++ old)
      rwa [if_neg (show ¬ rt' = rt from h.1)]
    | _ => exact ih

end History

namespace World

/-- `w.Unasking rt w'`: no effect of the runtime is queued or taken from the queue, its hook is not
asked for a flush, and none of its flushes begins or ends. -/
structure Unasking (w : World) (rt : RuntimeId) (w' : World) : Prop where
  flushing : (w'.runtime rt).flushing = (w.runtime rt).flushing
  requested : (w'.runtime rt).flushRequested = (w.runtime rt).flushRequested
  queue : w'.queue rt = w.queue rt
  past : ∃ new, w'.history = new ++ w.history ∧ ∀ e ∈ new, ¬ e.Flushes rt

namespace Unasking

variable {w w' w'' : World} {rt : RuntimeId}

theorem of_runtime (hr : w'.runtime rt = w.runtime rt) (new : List Event)
    (hh : w'.history = new ++ w.history) (hn : ∀ e ∈ new, ¬ e.Flushes rt) : w.Unasking rt w' where
  flushing := by rw [hr]
  requested := by rw [hr]
  queue := by rw [World.queue, World.queue, hr]
  past := ⟨new, hh, hn⟩

theorem of_runtimes (hr : w'.runtimes = w.runtimes) (new : List Event)
    (hh : w'.history = new ++ w.history) (hn : ∀ e ∈ new, ¬ e.Flushes rt) : w.Unasking rt w' :=
  of_runtime (by rw [runtime, runtime, hr]) new hh hn

theorem silent (hr : w'.runtimes = w.runtimes) (hh : w'.history = w.history) :
    w.Unasking rt w' :=
  of_runtimes hr [] hh (by simp)

theorem trans (h : w.Unasking rt w') (h' : w'.Unasking rt w'') : w.Unasking rt w'' where
  flushing := h'.flushing.trans h.flushing
  requested := h'.requested.trans h.requested
  queue := h'.queue.trans h.queue
  past := by
    obtain ⟨new, hn, he⟩ := h.past
    obtain ⟨new', hn', he'⟩ := h'.past
    refine ⟨new' ++ new, by rw [hn', hn, List.append_assoc], fun e hm => ?_⟩
    exact (List.mem_append.1 hm).elim (he' e) (he e)

theorem note (w : World) {e : Event} (h : ¬ e.Flushes rt) : w.Unasking rt (w.note e) :=
  of_runtimes rfl [e] rfl fun _ hm => List.mem_singleton.1 hm ▸ h

theorem modifyRuntime (w : World) (rt' : RuntimeId) {f : Runtime → Runtime}
    (hf : ∀ r, (f r).flushing = r.flushing ∧ (f r).flushRequested = r.flushRequested ∧
      (f r).queue = r.queue) : w.Unasking rt (w.modifyRuntime rt' f) where
  flushing := by
    rw [runtime_modifyRuntime]
    split
    · exact (hf _).1
    · rfl
  requested := by
    rw [runtime_modifyRuntime]
    split
    · exact (hf _).2.1
    · rfl
  queue := w.queue_modifyRuntime rt' rt fun r => (hf r).2.2
  past := ⟨[], rfl, by simp⟩

theorem elsewhere (w : World) {rt' : RuntimeId} (hrt : rt' ≠ rt) (f : Runtime → Runtime) :
    w.Unasking rt (w.modifyRuntime rt' f) := by
  refine of_runtime ?_ [] rfl (by simp)
  rw [runtime_modifyRuntime, if_neg fun h => hrt h.1]

theorem pushContext (w : World) (rt' : RuntimeId) (reader : Option NodeId) :
    w.Unasking rt (w.pushContext rt' reader) :=
  modifyRuntime w rt' fun _ => ⟨rfl, rfl, rfl⟩

theorem popContext (w : World) (rt' : RuntimeId) : w.Unasking rt (w.popContext rt') :=
  modifyRuntime w rt' fun _ => ⟨rfl, rfl, rfl⟩

theorem pushRuntime (w : World) (settings : Settings) (hook : Hook) :
    w.Unasking rt
      { w with runtimes := w.runtimes.push { settings := settings, hook := hook } } := by
  by_cases hrt : rt = w.runtimes.size
  · refine ⟨?_, ?_, ?_, [], rfl, by simp⟩ <;> simp [World.queue, runtime, hrt] <;> rfl
  · refine of_runtime ?_ [] rfl (by simp)
    simp [runtime, Array.getElem?_push, hrt]

theorem trackedBy (w : World) (n : NodeId) (h : Handle) (key : Key) :
    w.Unasking rt (w.trackedBy n h key) :=
  of_runtimes (runtimes_trackedBy w n h key) [.tracked n h key] (history_trackedBy w n h key)
    (by simp [Event.Flushes])

theorem trackedIn (w : World) (rt' : RuntimeId) (h : Handle) (key : Key) :
    w.Unasking rt (w.trackedIn rt' h key) :=
  of_runtimes (runtimes_trackedIn w rt' h key) _ (history_trackedIn w rt' h key) fun e he => by
    obtain ⟨n, -, rfl⟩ := Option.map_eq_some_iff.1 (Option.mem_toList.1 he)
    exact id

theorem clearedOf (w : World) (n : NodeId) : w.Unasking rt (w.clearedOf n) :=
  of_runtimes (runtimes_clearedOf w n) [.cleared n] (history_clearedOf w n) (by simp [Event.Flushes])

theorem disposing (w : World) (n : NodeId) : w.Unasking rt (w.disposing n) :=
  of_runtimes (runtimes_disposing w n) [.cleared n] (history_disposing w n) (by simp [Event.Flushes])

theorem taken (w : World) (h : Handle) (key : Key) : w.Unasking rt (w.taken h key) :=
  of_runtimes (runtimes_taken w h key) [.triggered h key] (history_taken w h key)
    (by simp [Event.Flushes])

theorem gotBy (w : World) (reader : Option NodeId) (n : NodeId) (r : Result) :
    w.Unasking rt (w.gotBy reader n r) := by
  cases reader with
  | none => exact .note w id
  | some x => exact (note w id).trans (.note _ id)

theorem computing (w : World) (n : NodeId) (rt' : RuntimeId) :
    w.Unasking rt (w.computing n rt') := by
  have hd : (w.clearedOf n).Unasking rt
      ((w.clearedOf n).modifyMemo n fun m => { m with dirty := false }) :=
    silent rfl rfl
  exact (((clearedOf w n).trans hd).trans (pushContext _ rt' _)).trans (note _ id)

theorem computed (w : World) (n : NodeId) (rt' : RuntimeId) (r : Result) :
    w.Unasking rt (w.computed n rt' r) :=
  ((popContext w rt').trans (note _ id)).trans (silent rfl rfl)

theorem running (w : World) (n : NodeId) (rt' : RuntimeId) : w.Unasking rt (w.running n rt') := by
  refine (((clearedOf w n).trans (pushContext _ rt' (some n))).trans ?_).trans (note _ id)
  exact silent rfl rfl

theorem stopped (w : World) (n : NodeId) (rt' : RuntimeId) : w.Unasking rt (w.stopped n rt') := by
  refine Unasking.trans ?_ (popContext _ rt')
  exact silent rfl rfl

theorem ran (w : World) (n : NodeId) (rt' : RuntimeId) : w.Unasking rt (w.ran n rt') := by
  refine Unasking.trans ?_ (popContext _ rt')
  exact of_runtimes rfl [.finished n] rfl (by simp [Event.Flushes])

theorem cleaning (w : World) (n : NodeId) (rt' : RuntimeId) :
    w.Unasking rt (w.cleaning n rt') := by
  refine Unasking.trans ?_ (pushContext _ rt' none)
  exact silent rfl rfl

theorem passBegun (w : World) (id : StoreId) : w.Unasking rt (w.passBegun id) := by
  rw [World.passBegun]
  refine Unasking.trans ?_ (pushContext _ _ _)
  exact of_runtimes rfl [.passBegan id] rfl (by simp [Event.Flushes])

theorem passEnded (w : World) (id : StoreId) (rt' : RuntimeId) :
    w.Unasking rt (w.passEnded id rt') := by
  rw [World.passEnded]
  refine (popContext w rt').trans ?_
  exact of_runtimes rfl [.passEnded id] rfl (by simp [Event.Flushes])

theorem passPostponed (w : World) (id : StoreId) : w.Unasking rt (w.passPostponed id) :=
  of_runtimes rfl [.passPostponed id] rfl (by simp [Event.Flushes])

theorem withSubscription (w : World) (id : StoreId) (callback : Closure) :
    w.Unasking rt (w.withSubscription id callback) :=
  of_runtimes rfl [.subscribed _] rfl (by simp [Event.Flushes])

end Unasking

@[simp] theorem runtime_note (w : World) (e : Event) (rt : RuntimeId) :
    (w.note e).runtime rt = w.runtime rt := rfl

theorem runtime_requested (w : World) (rt j : RuntimeId) :
    (w.requested rt).runtime j =
      if rt = j ∧ j < w.runtimes.size then { w.runtime j with flushRequested := true }
      else w.runtime j := by
  rw [← w.runtime_modifyRuntime rt j fun r => { r with flushRequested := true }, requested]
  split <;> rfl

/-- Queueing an effect asks the hook for a flush, unless one is under way or was asked for. -/
theorem queuedIn_eq (w : World) (rt : RuntimeId) (n : NodeId) :
    w.queuedIn rt n =
      if (w.runtime rt).flushing || (w.runtime rt).flushRequested then
        (w.note (.queued rt n)).modifyRuntime rt fun r => { r with queue := r.queue ++ [n] }
      else ((w.note (.queued rt n)).modifyRuntime rt fun r =>
        { r with queue := r.queue ++ [n] }).requested rt :=
  rfl

theorem Unasking.requestedElsewhere (w : World) {rt rt' : RuntimeId} (hrt : rt' ≠ rt) :
    w.Unasking rt (w.requested rt') := by
  refine .of_runtime ?_ [.requested rt'] (history_requested w rt') ?_
  · rw [runtime_requested, if_neg fun h => hrt h.1]
  · simpa [Event.Flushes] using hrt

theorem Unasking.queuedElsewhere (w : World) {rt rt' : RuntimeId} (hrt : rt' ≠ rt) (n : NodeId) :
    w.Unasking rt (w.queuedIn rt' n) := by
  have h : w.Unasking rt ((w.note (.queued rt' n)).modifyRuntime rt' fun r =>
      { r with queue := r.queue ++ [n] }) := (note w id).trans (elsewhere _ hrt _)
  rw [queuedIn_eq]
  split
  · exact h
  · exact h.trans (.requestedElsewhere _ hrt)

end World

theorem Aside.unasking {w w' : World} {rt : RuntimeId} (h : Aside w w') : w.Unasking rt w' := by
  have hr := h.runtimes_eq
  cases h with
  | bind name b valid => exact .of_runtimes hr [.bound name] rfl (by simp [Event.Flushes])
  | unbind name => exact .of_runtimes hr [.bound name] rfl (by simp [Event.Flushes])
  | log r => exact .silent hr rfl
  | clearLog => exact .silent hr rfl
  | external content => exact .silent hr rfl
  | task rt tasks h => exact .silent hr rfl
  | hold _ => exact .silent hr rfl
  | release _ _ => exact .silent hr rfl
  | cancel sub _ =>
    exact .of_runtimes hr [.unsubscribed sub] (w.history_cancelled sub) (by simp [Event.Flushes])
  | _ => exact .note w id

theorem Edit.unasking {w w' : World} {write : Write} {rt : RuntimeId} (h : Edit w write w') :
    w.Unasking rt w' := by
  have hr := h.runtimes_eq
  cases h <;> exact .of_runtimes hr [.wrote _] rfl (by simp [Event.Flushes])

def Frame.flush? : Frame → Option RuntimeId
  | .flushing rt => some rt
  | _ => none

def flushes (g : List Frame) : List RuntimeId :=
  g.filterMap Frame.flush?

theorem flushes_flushing (rt : RuntimeId) (g : List Frame) :
    flushes (.flushing rt :: g) = rt :: flushes g :=
  List.filterMap_cons_some rfl

/-- `c.Asks rt`: the flags of a runtime, its queue, the flushes that are under way and the past agree
about whether its hook has been asked for a flush. -/
structure Config.Asks (c : Config) (rt : RuntimeId) : Prop where
  asked : asked rt c.world.history = if (c.world.runtime rt).flushRequested then 1 else 0
  unasked : (c.world.runtime rt).flushing → (c.world.runtime rt).flushRequested = false
  count : (flushes c.stack).count rt = if (c.world.runtime rt).flushing then 1 else 0
  work : (c.world.runtime rt).flushRequested → c.world.queue rt ≠ []
  /-- An interrupt that is on its way out of a flush was thrown in it. -/
  thrown : c.unwinding → (c.world.runtime rt).flushing → BrokenOff rt c.world.history
  /-- What waits without the hook having been asked was left behind by a flush. -/
  left : (c.world.runtime rt).flushing = false → (c.world.runtime rt).flushRequested = false →
    c.world.queue rt ≠ [] → FlushBroken rt c.world.history

namespace Config.Asks

variable {w w' : World} {g g' : List Frame} {u u' : Bool} {rt : RuntimeId}

theorem unasking (h : Asks ⟨w, g, u⟩ rt) (hw : w.Unasking rt w')
    (hg : (flushes g').count rt = (flushes g).count rt) (hu : u' → u) : Asks ⟨w', g', u'⟩ rt := by
  obtain ⟨new, hn, he⟩ := hw.past
  refine ⟨?_, ?_, ?_, ?_, fun hu' hf => ?_, fun hf hr hq => ?_⟩
  · show Reactivity.asked rt w'.history = _
    rw [hn, asked_append he, hw.requested]
    exact h.asked
  · show (w'.runtime rt).flushing → (w'.runtime rt).flushRequested = false
    rw [hw.flushing, hw.requested]
    exact h.unasked
  · show (flushes g').count rt = if (w'.runtime rt).flushing then 1 else 0
    rw [hg, hw.flushing]
    exact h.count
  · show (w'.runtime rt).flushRequested → w'.queue rt ≠ []
    rw [hw.requested, hw.queue]
    exact h.work
  · rw [hw.flushing] at hf
    show BrokenOff rt w'.history
    rw [hn]
    exact (h.thrown (hu hu') hf).append he
  · rw [hw.flushing] at hf
    rw [hw.requested] at hr
    rw [hw.queue] at hq
    show FlushBroken rt w'.history
    rw [hn]
    exact (h.left hf hr hq).append he

theorem interrupted (h : Asks ⟨w, g, false⟩ rt) {e : Event}
    (he : (∃ message, e = .threw message) ∨ e = .exhausted) : Asks ⟨w.note e, g, true⟩ rt := by
  have hf : ¬ e.Flushes rt := by rcases he with ⟨message, rfl⟩ | rfl <;> exact id
  have h' : Asks ⟨w.note e, g, false⟩ rt := h.unasking (.note w hf) rfl id
  refine ⟨h'.asked, h'.unasked, h'.count, h'.work, fun _ _ => ?_, h'.left⟩
  rcases he with ⟨message, rfl⟩ | rfl <;> exact trivial

/-- An effect is queued, and the hook is asked for a flush unless one is under way or was asked
for. -/
theorem queuedIn (h : Asks ⟨w, g, u⟩ rt) {rt' : RuntimeId} (hrt : rt' < w.runtimes.size)
    (n : NodeId) : Asks ⟨w.queuedIn rt' n, g, u⟩ rt := by
  by_cases hj : rt' = rt
  · subst hj
    have hq := (w.note (.queued rt' n)).runtime_modifyRuntime rt' rt' fun r =>
      { r with queue := r.queue ++ [n] }
    rw [if_pos ⟨rfl, hrt⟩] at hq
    have hv := (w.note (.queued rt' n)).size_modifyRuntime rt' fun r =>
      { r with queue := r.queue ++ [n] }
    rw [World.queuedIn_eq]
    generalize hw' : ((w.note (.queued rt' n)).modifyRuntime rt' fun r =>
      { r with queue := r.queue ++ [n] }) = w' at hq hv ⊢
    have hh : w'.history = .queued rt' n :: w.history := hw' ▸ rfl
    have hf : (w'.runtime rt').flushing = (w.runtime rt').flushing := hq ▸ rfl
    have hr : (w'.runtime rt').flushRequested = (w.runtime rt').flushRequested := hq ▸ rfl
    have hwork : w'.queue rt' ≠ [] := by
      rw [World.queue, hq]
      exact List.append_ne_nil_of_right_ne_nil _ (List.cons_ne_nil _ _)
    have hasked : Reactivity.asked rt' w'.history = Reactivity.asked rt' w.history := hh ▸ rfl
    split
    · next hc =>
      refine ⟨?_, ?_, ?_, fun _ => hwork, fun hu hf' => ?_, fun hf' hr' => ?_⟩
      · exact hasked.trans (hr ▸ h.asked)
      · exact hr ▸ hf ▸ h.unasked
      · exact hf ▸ h.count
      · show BrokenOff rt' w'.history
        rw [hh]
        exact h.thrown hu (hf ▸ hf')
      · rw [← hf, ← hr, hf', hr'] at hc
        cases hc
    · next hc =>
      obtain ⟨idle, unasked⟩ : (w.runtime rt').flushing = false ∧
          (w.runtime rt').flushRequested = false := by simpa using hc
      have hr₁ := w'.runtime_requested rt' rt'
      rw [if_pos ⟨rfl, hv.symm ▸ hrt⟩] at hr₁
      have h0 := h.asked
      have hcount := h.count
      simp only [unasked, idle] at h0 hcount
      refine ⟨?_, ?_, ?_, fun _ => ?_, ?_, ?_⟩
      · simp [hr₁, Reactivity.asked, hasked, h0]
      · simp [hr₁, hf, idle]
      · simp [hr₁, hf, idle, hcount]
      · show ((w'.requested rt').runtime rt').queue ≠ []
        rw [hr₁]
        exact hwork
      · simp [hr₁, hf, idle]
      · simp [hr₁]
  · exact h.unasking (.queuedElsewhere w hj n) rfl id

theorem beginFlush (h : Asks ⟨w, g, false⟩ rt) {rt' : RuntimeId} (hrt : rt' < w.runtimes.size)
    (idle : (w.runtime rt').flushing = false) :
    Asks ⟨(w.note (.flushBegan rt')).modifyRuntime rt' fun r =>
      { r with flushing := true, flushRequested := false }, .flushing rt' :: g, false⟩ rt := by
  have hcount := h.count
  simp only at hcount
  have hr := World.runtime_modifyRuntime (w.note (.flushBegan rt')) rt' rt fun r =>
    { r with flushing := true, flushRequested := false }
  by_cases hj : rt' = rt
  · subst hj
    rw [if_pos ⟨rfl, hrt⟩] at hr
    rw [idle] at hcount
    refine ⟨?_, ?_, ?_, ?_, nofun, ?_⟩
    · simp [hr, Reactivity.asked]
    · simp [hr]
    · simp [hr, flushes_flushing, hcount]
    · simp [hr]
    · simp [hr]
  · have hw : w.Unasking rt ((w.note (.flushBegan rt')).modifyRuntime rt' fun r =>
        { r with flushing := true, flushRequested := false }) :=
      (World.Unasking.note w (e := .flushBegan rt') hj).trans (.elsewhere _ hj _)
    refine h.unasking hw ?_ id
    rw [flushes_flushing, List.count_cons_of_ne hj]

/-- The effects that wait are taken from the queue by the flush of the runtime that is under way. -/
theorem emptied (h : Asks ⟨w, g, u⟩ rt) {rt' : RuntimeId} (hg : rt' ∈ flushes g)
    (hrt : rt' < w.runtimes.size) {e : Event} (he : ¬ e.Flushes rt) (hgg : flushes g' = flushes g) :
    Asks ⟨(w.modifyRuntime rt' fun r => { r with queue := [] }).note e, g', u⟩ rt := by
  by_cases hj : rt' = rt
  · subst hj
    have hr := w.runtime_modifyRuntime rt' rt' fun r => { r with queue := [] }
    rw [if_pos ⟨rfl, hrt⟩] at hr
    have flushing : (w.runtime rt').flushing := by
      by_contra hf
      have hcount := h.count
      simp only [hf] at hcount
      exact absurd hg (List.count_eq_zero.1 hcount)
    have unasked := h.unasked flushing
    have hnew : ∀ e' ∈ [e], ¬ e'.Flushes rt' := List.forall_mem_singleton.2 he
    have hasked : Reactivity.asked rt' (e :: w.history) = Reactivity.asked rt' w.history :=
      asked_append hnew
    refine ⟨?_, ?_, ?_, ?_, fun hu _ => ?_, ?_⟩
    · simpa [hr, hasked] using h.asked
    · simp [hr, unasked]
    · simpa [hr, hgg] using h.count
    · simp [hr, unasked]
    · exact (h.thrown hu flushing).append hnew
    · simp [hr, flushing]
  · exact h.unasking ((World.Unasking.elsewhere w hj _).trans (.note _ he)) (by rw [hgg]) id

theorem endFlush {rt' : RuntimeId} (h : Asks ⟨w, .flushing rt' :: g, u⟩ rt)
    (hrt : rt' < w.runtimes.size) (done : u = false → w.queue rt' = []) :
    Asks ⟨(w.modifyRuntime rt' fun r => { r with flushing := false }).note (.flushEnded rt'),
      g, u⟩ rt := by
  have hcount := h.count
  simp only [flushes_flushing] at hcount
  by_cases hj : rt' = rt
  · subst hj
    have hr := w.runtime_modifyRuntime rt' rt' fun r => { r with flushing := false }
    rw [if_pos ⟨rfl, hrt⟩] at hr
    rw [List.count_cons_self] at hcount
    have flushing : (w.runtime rt').flushing := by
      by_contra hf
      simp [hf] at hcount
    rw [if_pos flushing] at hcount
    have unasked := h.unasked flushing
    have hasked := h.asked
    refine ⟨?_, ?_, ?_, ?_, ?_, fun _ _ hq => ?_⟩
    · simpa [hr, Reactivity.asked] using hasked
    · simp [hr]
    · simpa [hr] using hcount
    · simp [hr, unasked]
    · simp [hr]
    · have hu : u = true := by
        by_contra hu
        rw [World.queue, World.runtime_note, hr] at hq
        exact hq (done (Bool.not_eq_true _ ▸ hu))
      show if rt' = rt' then BrokenOff rt' w.history else FlushBroken rt' w.history
      rw [if_pos rfl]
      exact h.thrown hu flushing
  · refine h.unasking ((World.Unasking.elsewhere w hj _).trans (.note _ hj)) ?_ id
    rw [flushes_flushing, List.count_cons_of_ne hj]

end Config.Asks

theorem Step.asks {c c' : Config} (h : Step c c') (hc : c.Sane) {rt : RuntimeId} (hr : c.Asks rt) :
    c'.Asks rt := by
  cases h with
  | aside h => exact hr.unasking h.unasking rfl id
  | track _ _ _ _ _ => exact hr.unasking (.trackedBy _ _ _ _) rfl id
  | write _ _ _ edit => exact hr.unasking edit.unasking rfl id
  | trigger => exact hr.unasking (.taken _ _ _) rfl id
  | @tellEffect w g rt' n ns _ _ =>
    have hq := hr.queuedIn (hc.frames _ (List.mem_cons_self ..)).1 n
    exact hq.unasking (.silent rfl rfl) rfl id
  | @schedule w g n e _ _ effect _ _ _ =>
    have hn : Config.Asks ⟨w.note (.scheduled n), g, false⟩ rt := hr.unasking (.note w id) rfl id
    exact hn.queuedIn (hc.world.effects n e effect).1 n
  | reuse _ _ _ _ _ =>
    exact hr.unasking ((World.Unasking.trackedIn _ _ _ _).trans (.note _ id)) rfl id
  | beginCompute _ _ _ _ =>
    exact hr.unasking ((World.Unasking.trackedIn _ _ _ _).trans (.computing _ _ _)) rfl id
  | endCompute _ _ _ => exact hr.unasking (.computed _ _ _ _) rfl id
  | abandonCompute => exact hr.unasking (.popContext _ _) rfl id
  | endReading _ _ => exact hr.unasking (.gotBy _ _ _ _) rfl id
  | clearRunning _ _ => exact hr.unasking (.clearedOf _ _) rfl id
  | beginRun _ _ _ turn =>
    refine hr.unasking (.running _ _ _) ?_ id
    rcases turn with ⟨rfl, -⟩ | ⟨rfl, -⟩ <;> rfl
  | endRun _ => exact hr.unasking (.ran _ _ _) rfl id
  | watchPass _ _ _ _ => exact hr.unasking (.passBegun _ _) rfl id
  | watchPostpone _ _ _ => exact hr.unasking (.passPostponed _ _) rfl id
  | endWatch _ => exact hr.unasking (.ran _ _ _) rfl id
  | abandonRun => exact hr.unasking (.stopped _ _ _) rfl id
  | dispose _ _ _ _ => exact hr.unasking ((World.Unasking.disposing _ _).trans (.cleaning _ _ _)) rfl id
  | beginCleaning _ => exact hr.unasking (.cleaning _ _ _) rfl id
  | endCleaning => exact hr.unasking ((World.Unasking.popContext _ _).trans (.note _ id)) rfl id
  | abandonCleaning _ => exact hr.unasking (.popContext _ _) rfl id
  | advance h => cases h <;> exact hr.unasking (.note _ id) rfl id
  | retire _ => exact hr.unasking ((World.Unasking.disposing _ _).trans (.note _ id)) rfl id
  | mask _ _ _ => exact hr.unasking (.pushContext _ _ _) rfl id
  | unmask => exact hr.unasking (.popContext _ _) rfl id
  | beginPass _ _ _ _ => exact hr.unasking ((World.Unasking.note _ id).trans (.passBegun _ _)) rfl id
  | endPass => exact hr.unasking (.passEnded _ _ _) rfl id
  | postpone _ _ _ => exact hr.unasking ((World.Unasking.note _ id).trans (.passPostponed _ _)) rfl id
  | takeUp _ _ _ =>
    exact hr.unasking (.of_runtimes rfl [.scheduled _] rfl (by simp [Event.Flushes])) rfl id
  | passOver _ => exact hr.unasking (.silent rfl rfl) rfl id
  | beginCall _ _ _ | greet _ _ =>
    exact hr.unasking (.of_runtimes rfl [.delivered _ _] rfl (by simp [Event.Flushes])) rfl id
  | subscribe _ _ _ _ =>
    exact hr.unasking ((World.Unasking.withSubscription _ _ _).trans (.pushContext _ _ _)) rfl
      fun h => h
  | endCall =>
    exact hr.unasking (.of_runtimes rfl [.returned _] rfl (by simp [Event.Flushes])) rfl id
  | newRuntime _ => exact hr.unasking (.pushRuntime _ _ _) rfl id
  | beginFlush _ _ valid idle => exact hr.beginFlush valid idle
  | beginRound _ =>
    exact hr.emptied List.mem_cons_self (hc.frames _ (List.mem_cons_self ..)) id rfl
  | @giveUp w s g rt' _ frames =>
    have hf : .flushing rt' ∈ s := by rcases frames with rfl | ⟨rfl, -⟩ <;> simp
    have hs : flushes s = flushes (.flushing rt' :: g) := by
      rcases frames with rfl | ⟨rfl, -⟩ <;> rfl
    exact hr.emptied (hs ▸ List.mem_cons_self) (hc.frames _ hf) id hs.symm
  | endFlush done => exact hr.endFlush (hc.frames _ (List.mem_cons_self ..)) done
  | throw _ => exact hr.interrupted (.inl ⟨_, rfl⟩)
  | exhaust _ => exact hr.interrupted (.inr rfl)
  | @drop w g f droppable =>
    refine hr.unasking (.silent rfl rfl) ?_ id
    cases f <;> first | rfl | exact droppable.elim
  | resume => exact hr.unasking (.silent rfl rfl) rfl nofun
  | endChange _ _ =>
    exact hr.unasking (.of_runtimes rfl [.wrote _, .changeEnded _] rfl (by simp [Event.Flushes]))
      rfl id
  | newObject _ _ _ =>
    exact hr.unasking ((World.Unasking.note _ id).trans (.silent rfl rfl)) rfl id
  | newArray _ _ _ =>
    exact hr.unasking ((World.Unasking.note _ id).trans (.silent rfl rfl)) rfl id
  | markDirty _ _ _ =>
    exact hr.unasking ((World.Unasking.note _ id).trans (.silent rfl rfl)) rfl id
  | markClean _ _ _ _ =>
    exact hr.unasking ((World.Unasking.note _ id).trans (.silent rfl rfl)) rfl id
  | addCleanup _ _ _ _ _ _ =>
    exact hr.unasking ((World.Unasking.note _ id).trans (.silent rfl rfl)) rfl id
  | see _ _ _ _ _ _ _ => exact hr.unasking (.note _ id) rfl id
  | beginChange _ _ _ _ => exact hr.unasking (.note _ id) rfl id
  | abandonChange => exact hr.unasking (.note _ id) rfl id
  | beginTurn _ => exact hr.unasking (.note _ id) rfl id
  | _ => exact hr.unasking (.silent rfl rfl) rfl id

theorem Config.asks_start (settings : Settings) (hook : Hook) (rt : RuntimeId) :
    (Config.start settings hook).Asks rt := by
  have idle : ((World.start settings hook).runtime rt).flushing = false ∧
      ((World.start settings hook).runtime rt).flushRequested = false ∧
        (World.start settings hook).queue rt = [] := by
    rw [World.queue, World.runtime]
    cases rt <;> exact ⟨rfl, rfl, rfl⟩
  obtain ⟨hf, hr, hq⟩ := idle
  refine ⟨?_, fun _ => hr, ?_, ?_, fun hu => absurd hu Bool.false_ne_true,
    fun _ _ hne => absurd hq hne⟩
  · rw [Config.start, hr]
    rfl
  · rw [Config.start, hf]
    rfl
  · rw [Config.start, hr]
    exact fun h => absurd h Bool.false_ne_true

theorem Reaches.asks {settings : Settings} {hook : Hook} {c : Config}
    (h : Reaches (.start settings hook) c) (rt : RuntimeId) : c.Asks rt := by
  induction h with
  | refl => exact Config.asks_start settings hook rt
  | tail steps step ih => exact step.asks (steps.sane (Config.start_sane settings hook)) ih

/-- A hook is asked for a flush at most once between the beginnings of two flushes, and never while
one is under way, whatever a program does. Outside of a flush effects wait if it has been asked; and
if effects wait it has been asked, unless something was thrown in the latest flush. -/
theorem flush_asked_for (settings : Settings) (hook : Hook) (depth : Nat) (es : List Expr) :
    Throughout settings hook depth es fun w => ∀ rt,
      asked rt w.history ≤ 1 ∧
        ((w.runtime rt).flushing → asked rt w.history = 0) ∧
          ((w.runtime rt).flushing = false → (asked rt w.history = 1 → w.queue rt ≠ []) ∧
            (w.queue rt ≠ [] → asked rt w.history = 1 ∨ FlushBroken rt w.history)) := by
  refine throughout_of_reaches (fun {c} hreach _ _ rt => ?_) depth es
  have h := hreach.asks rt
  cases hr : (c.world.runtime rt).flushRequested with
  | false =>
    have h0 : asked rt c.world.history = 0 := by simpa [hr] using h.asked
    rw [h0]
    exact ⟨Nat.zero_le _, fun _ => rfl, fun hf => ⟨nofun, fun hq => .inr (h.left hf hr hq)⟩⟩
  | true =>
    have h1 : asked rt c.world.history = 1 := by simpa [hr] using h.asked
    have idle : (c.world.runtime rt).flushing = false := by
      by_contra hf
      rw [h.unasked (by simpa using hf)] at hr
      cases hr
    refine ⟨Nat.le_of_eq h1, fun hf => ?_, fun _ => ⟨fun _ => h.work hr, fun _ => .inl h1⟩⟩
    rw [idle] at hf
    cases hf

def writingAndThrowing : List Expr :=
  [.assign "o" (.apply .wrapObject [.literal (.object [])]),
   .effect (.cond (.apply .isNothing [.path true (.var "o") [.literal (.string "x")]]) .nothing
     (.block [.container .set (.var "o") [.literal (.string "y"), .literal .null],
       .throw "broken"])),
   .effect (.path true (.var "o") [.literal (.string "y")]),
   .container .set (.var "o") [.literal (.string "x"), .literal .null],
   .apply .flush []]

/-- A flush that something is thrown in can leave an effect waiting, with nobody asked for the next
one. -/
theorem broken_flush_unasked :
    let w := World.after .standard .log 3 writingAndThrowing
    w.queue 0 = [1] ∧ (w.runtime 0).flushing = false ∧ asked 0 w.history = 0 := by
  refine ⟨?_, ?_, ?_⟩
  · cbv
  · cbv
  · cbv

end Reactivity
