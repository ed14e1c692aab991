import Reactivity.Proofs.Registration.Disposal

namespace Reactivity

def Event.tracks (n : NodeId) (h : Handle) (key : Key) : Event → Bool
  | .tracked m h' key' => m == n && h' == h && key' == key
  | _ => false

/-- The past leaves the node registered on the part: it has read it since it was last taken from
everything, and since the part was last triggered. -/
def enrolled (n : NodeId) (h : Handle) (key : Key) (history : List Event) : Bool :=
  (sinceTriggered h key (sinceCleared n history)).any (·.tracks n h key)

/-- How often a node has read a part, since it was last taken from everything, without being registered
on it. -/
def enrolments (n : NodeId) (h : Handle) (key : Key) : List Event → Nat
  | [] => 0
  | .tracked m h' key' :: old =>
    enrolments n h key old +
      if (m = n ∧ h' = h ∧ key' = key) ∧ enrolled n h key old = false then 1 else 0
  | .cleared m :: old => if m = n then 0 else enrolments n h key old
  | _ :: old => enrolments n h key old

/-- Among the events, the node has read the part when it had read it before, but not since the part was
last triggered. -/
def ReadAgain (n : NodeId) (h : Handle) (key : Key) (events : List Event) : Prop :=
  ∃ late early, events = late ++ .tracked n h key :: early ∧ .tracked n h key ∈ early ∧
    .tracked n h key ∉ sinceTriggered h key early

/-- The event says that a node has read something or was taken from everything, or that something was
triggered. -/
def Event.Relists : Event → Prop
  | .tracked .. | .cleared _ | .triggered .. => True
  | _ => False

section Past

variable {n : NodeId} {h : Handle} {key : Key} {e : Event} {history events : List Event}

theorem Event.tracks_iff : e.tracks n h key = true ↔ e = .tracked n h key := by
  cases e <;> simp [tracks, and_assoc]

theorem enrolled_iff : enrolled n h key history = true ↔
    .tracked n h key ∈ sinceTriggered h key (sinceCleared n history) := by
  simp [enrolled, Event.tracks_iff]

theorem sinceCleared_self (n : NodeId) (history : List Event) :
    sinceCleared n (.cleared n :: history) = [] := by
  simp [sinceCleared]

theorem sinceTriggered_self (h : Handle) (key : Key) (history : List Event) :
    sinceTriggered h key (.triggered h key :: history) = [] := by
  simp [sinceTriggered]

theorem mem_of_mem_sinceTriggered (he : e ∈ sinceTriggered h key events) : e ∈ events :=
  (List.takeWhile_sublist _).subset he

theorem enrolled_tracked (n : NodeId) (h : Handle) (key : Key) (history : List Event) :
    enrolled n h key (.tracked n h key :: history) = true := by
  rw [enrolled_iff, sinceCleared_cons (by simp), sinceTriggered_cons (by simp)]
  exact List.mem_cons_self

theorem enrolled_cleared (n : NodeId) (h : Handle) (key : Key) (history : List Event) :
    enrolled n h key (.cleared n :: history) = false := by
  rw [enrolled, sinceCleared_self]
  rfl

theorem enrolled_triggered (n : NodeId) (h : Handle) (key : Key) (history : List Event) :
    enrolled n h key (.triggered h key :: history) = false := by
  rw [enrolled, sinceCleared_cons (by simp), sinceTriggered_self]
  rfl

theorem enrolled_cons (tracked : e ≠ .tracked n h key) (cleared : e ≠ .cleared n)
    (triggered : e ≠ .triggered h key) :
    enrolled n h key (e :: history) = enrolled n h key history := by
  have he : e.tracks n h key = false :=
    eq_false_of_ne_true fun he => tracked (Event.tracks_iff.1 he)
  rw [enrolled, sinceCleared_cons cleared, sinceTriggered_cons triggered, List.any_cons, he,
    Bool.false_or]
  rfl

theorem enrolments_tracked (n : NodeId) (h : Handle) (key : Key) (history : List Event) :
    enrolments n h key (.tracked n h key :: history) =
      enrolments n h key history + if enrolled n h key history then 0 else 1 := by
  cases hr : enrolled n h key history <;> simp [enrolments, hr]

theorem enrolments_cleared (n : NodeId) (h : Handle) (key : Key) (history : List Event) :
    enrolments n h key (.cleared n :: history) = 0 :=
  if_pos rfl

theorem enrolments_cons (tracked : e ≠ .tracked n h key) (cleared : e ≠ .cleared n) :
    enrolments n h key (e :: history) = enrolments n h key history := by
  cases e with
  | tracked m h' key' =>
    have hne : ¬ (m = n ∧ h' = h ∧ key' = key) := by
      rintro ⟨rfl, rfl, rfl⟩
      exact tracked rfl
    simp [enrolments, hne]
  | cleared m =>
    have hne : m ≠ n := fun hm => cleared (hm ▸ rfl)
    exact if_neg hne
  | _ => rfl

theorem enrolled_append {new : List Event} (hn : ∀ e ∈ new, ¬ e.Relists) :
    enrolled n h key (new ++ history) = enrolled n h key history ∧
      enrolments n h key (new ++ history) = enrolments n h key history := by
  induction new with
  | nil => exact ⟨rfl, rfl⟩
  | cons e new ih =>
    obtain ⟨he, hn⟩ := List.forall_mem_cons.1 hn
    have tracked : e ≠ .tracked n h key := by
      rintro rfl
      exact he trivial
    have cleared : e ≠ .cleared n := by
      rintro rfl
      exact he trivial
    have triggered : e ≠ .triggered h key := by
      rintro rfl
      exact he trivial
    rw [List.cons_append, enrolled_cons tracked cleared triggered, enrolments_cons tracked cleared]
    exact ih hn

theorem readAgain_cons : ReadAgain n h key (e :: events) ↔
    (e = .tracked n h key ∧ .tracked n h key ∈ events ∧
      .tracked n h key ∉ sinceTriggered h key events) ∨ ReadAgain n h key events := by
  constructor
  · rintro ⟨late, early, heq, hm, hs⟩
    cases late with
    | nil =>
      obtain ⟨rfl, rfl⟩ := List.cons.inj heq
      exact .inl ⟨rfl, hm, hs⟩
    | cons e' late =>
      obtain ⟨rfl, rfl⟩ := List.cons.inj heq
      exact .inr ⟨late, early, rfl, hm, hs⟩
  · rintro (⟨rfl, hm, hs⟩ | ⟨late, early, rfl, hm, hs⟩)
    · exact ⟨[], events, rfl, hm, hs⟩
    · exact ⟨e :: late, early, rfl, hm, hs⟩

theorem ReadAgain.mem (ha : ReadAgain n h key events) : .tracked n h key ∈ events := by
  obtain ⟨late, early, rfl, -, -⟩ := ha
  exact List.mem_append_right _ List.mem_cons_self

/-- What a node has read since it was last taken from everything it was registered on at least
once. -/
theorem one_le_enrolments :
    1 ≤ enrolments n h key history ↔ .tracked n h key ∈ sinceCleared n history := by
  induction history with
  | nil => simp [enrolments, sinceCleared]
  | cons e old ih =>
    by_cases ht : e = .tracked n h key
    · subst ht
      rw [enrolments_tracked, sinceCleared_cons (by simp)]
      refine iff_of_true ?_ List.mem_cons_self
      split
      · next hr => exact ih.2 (mem_of_mem_sinceTriggered (enrolled_iff.1 hr))
      · exact Nat.le_add_left ..
    · by_cases hc : e = .cleared n
      · subst hc
        rw [enrolments_cleared, sinceCleared_self]
        simp
      · rw [enrolments_cons ht hc, sinceCleared_cons hc, List.mem_cons, ih]
        exact (or_iff_right (Ne.symm ht)).symm

/-- It was registered on the part more than once if it has read it again after a trigger. -/
theorem two_le_enrolments :
    2 ≤ enrolments n h key history ↔ ReadAgain n h key (sinceCleared n history) := by
  induction history with
  | nil => simp [enrolments, sinceCleared, ReadAgain]
  | cons e old ih =>
    by_cases ht : e = .tracked n h key
    · subst ht
      rw [enrolments_tracked, sinceCleared_cons (by simp), readAgain_cons]
      cases hr : enrolled n h key old with
      | true =>
        have hm := enrolled_iff.1 hr
        rw [if_pos rfl, Nat.add_zero, ih]
        exact (or_iff_right fun ha => ha.2.2 hm).symm
      | false =>
        have hm : .tracked n h key ∉ sinceTriggered h key (sinceCleared n old) := fun hm =>
          Bool.false_ne_true (hr.symm.trans (enrolled_iff.2 hm))
        have hsucc : 2 ≤ enrolments n h key old + 1 ↔ 1 ≤ enrolments n h key old :=
          Nat.succ_le_succ_iff
        rw [if_neg Bool.false_ne_true, hsucc, one_le_enrolments]
        exact ⟨fun ho => .inl ⟨rfl, ho, hm⟩, fun ha => ha.elim (·.2.1) ReadAgain.mem⟩
    · by_cases hc : e = .cleared n
      · subst hc
        rw [enrolments_cleared, sinceCleared_self]
        simp [ReadAgain]
      · rw [enrolments_cons ht hc, sinceCleared_cons hc, readAgain_cons, ih]
        exact (or_iff_right fun ha => ht ha.1).symm

end Past

namespace World

/-- Who is registered on what, and how often each part is listed, is what the past says. -/
structure Enlisted (w : World) : Prop where
  enrolled : ∀ n h key, (key, n) ∈ w.readers h ↔ enrolled n h key w.history
  counted : ∀ n h key, (w.sources n).count (h, key) = enrolments n h key w.history

/-- `w.Retains w'`: everybody is registered on what they were registered on, and lists what they
listed. -/
structure Retains (w w' : World) : Prop where
  readers : ∀ h, w'.readers h = w.readers h
  sources : ∀ n, w'.sources n = w.sources n
  past : ∃ new, w'.history = new ++ w.history ∧ ∀ e ∈ new, ¬ e.Relists

namespace Retains

variable {w w' w'' : World}

theorem of_eq (hr : ∀ h, w'.readers h = w.readers h) (hs : ∀ n, w'.sources n = w.sources n)
    (hh : w'.history = w.history) : w.Retains w' :=
  ⟨hr, hs, [], hh, List.forall_mem_nil _⟩

theorem trans (h : w.Retains w') (h' : w'.Retains w'') : w.Retains w'' where
  readers x := (h'.readers x).trans (h.readers x)
  sources n := (h'.sources n).trans (h.sources n)
  past := by
    obtain ⟨new, hn, hr⟩ := h.past
    obtain ⟨new', hn', hr'⟩ := h'.past
    refine ⟨new' ++ new, by rw [hn', hn, List.append_assoc], fun e he => ?_⟩
    exact (List.mem_append.1 he).elim (hr' e) (hr e)

theorem note (w : World) {e : Event} (h : ¬ e.Relists) : w.Retains (w.note e) where
  readers := w.readers_note e
  sources _ := rfl
  past := ⟨[e], rfl, fun _ he => List.mem_singleton.1 he ▸ h⟩

theorem modifyRuntime (w : World) (rt : RuntimeId) (f : Runtime → Runtime) :
    w.Retains (w.modifyRuntime rt f) :=
  of_eq (fun h => by cases h <;> rfl) (fun _ => rfl) rfl

theorem modifyStore (w : World) (id : StoreId) (f : Store → Store) :
    w.Retains (w.modifyStore id f) :=
  of_eq (fun h => by cases h <;> rfl) (fun _ => rfl) rfl

theorem modifySubscription (w : World) (sub : SubscriptionId) (f : Subscription → Subscription) :
    w.Retains (w.modifySubscription sub f) :=
  of_eq (fun h => by cases h <;> rfl) (fun _ => rfl) rfl

theorem modifyObject (w : World) (id : ObjectId) {f : ObjectState → ObjectState}
    (hf : ∀ o, (f o).readers = o.readers) : w.Retains (w.modifyObject id f) :=
  of_eq (w.readers_modifyObject id hf) (fun _ => rfl) rfl

theorem modifyArray (w : World) (id : ArrayId) {f : ArrayState → ArrayState}
    (hf : ∀ a, (f a).readers = a.readers) : w.Retains (w.modifyArray id f) :=
  of_eq (w.readers_modifyArray id hf) (fun _ => rfl) rfl

theorem modifyEffect (w : World) (n : NodeId) {f : Effect → Effect}
    (hf : ∀ e, (f e).sources = e.sources) : w.Retains (w.modifyEffect n f) :=
  of_eq (w.readers_modifyEffect n f) (fun m => w.sources_modifyEffect n m hf) rfl

theorem modifyMemo (w : World) (n : NodeId) {f : Memo → Memo}
    (hf : ∀ m, (f m).readers = m.readers ∧ (f m).sources = m.sources) :
    w.Retains (w.modifyMemo n f) :=
  of_eq (w.readers_modifyMemo n fun m => (hf m).1)
    (fun m => w.sources_modifyMemo n m fun x => (hf x).2) rfl

theorem pushNode (w : World) {node : Node}
    (memo : ∀ m, node = .memo m → m.readers = [] ∧ m.sources = [])
    (effect : ∀ e, node = .effect e → e.sources = []) : w.Retains (w.pushNode node) := by
  refine of_eq (w.readers_pushNode fun m hm => (memo m hm).1) (fun n => ?_) rfl
  by_cases hn : n = w.nodes.size
  · rw [World.sources, World.sources, World.pushNode, Array.getElem?_push, if_pos hn, hn,
      Array.getElem?_eq_none (Nat.le_refl _)]
    cases node with
    | effect e => exact effect e rfl
    | memo m => exact (memo m rfl).2
  · rw [World.sources, World.sources, World.pushNode, Array.getElem?_push, if_neg hn]

theorem requested (w : World) (rt : RuntimeId) : w.Retains (w.requested rt) := by
  have h : w.Retains
      ((w.modifyRuntime rt fun r => { r with flushRequested := true }).note (.requested rt)) :=
    trans (modifyRuntime w rt _) (note _ id)
  rw [World.requested]
  split <;> exact h.trans (of_eq (fun h => by cases h <;> rfl) (fun _ => rfl) rfl)

theorem queuedIn (w : World) (rt : RuntimeId) (n : NodeId) : w.Retains (w.queuedIn rt n) := by
  have h : w.Retains
      ((w.note (.queued rt n)).modifyRuntime rt fun r => { r with queue := r.queue ++ [n] }) :=
    trans (note w id) (modifyRuntime _ rt _)
  rw [World.queuedIn]
  split
  · exact h
  · exact h.trans (requested _ rt)

theorem madeDirty (w : World) (n : NodeId) : w.Retains (w.madeDirty n) :=
  modifyMemo w n fun _ => ⟨rfl, rfl⟩

theorem computed (w : World) (n : NodeId) (rt : RuntimeId) (r : Result) :
    w.Retains (w.computed n rt r) := by
  rw [World.computed]
  exact ((modifyRuntime w rt _).trans (note _ id)).trans (modifyMemo _ n fun _ => ⟨rfl, rfl⟩)

theorem gotBy (w : World) (reader : Option NodeId) (n : NodeId) (r : Result) :
    w.Retains (w.gotBy reader n r) := by
  cases reader with
  | none => exact note w id
  | some x => exact (note w id).trans (note _ id)

theorem stopped (w : World) (n : NodeId) (rt : RuntimeId) : w.Retains (w.stopped n rt) := by
  rw [World.stopped]
  refine trans ?_ (modifyRuntime _ rt _)
  exact modifyEffect w n fun _ => rfl

theorem ran (w : World) (n : NodeId) (rt : RuntimeId) : w.Retains (w.ran n rt) := by
  rw [World.ran]
  refine trans ?_ (modifyRuntime _ rt _)
  refine trans ?_ (modifyEffect _ n fun _ => rfl)
  refine trans ?_ (note _ id)
  exact modifyEffect w n fun _ => rfl

theorem cleaning (w : World) (n : NodeId) (rt : RuntimeId) : w.Retains (w.cleaning n rt) := by
  rw [World.cleaning]
  refine trans ?_ (modifyRuntime _ rt _)
  exact modifyEffect w n fun _ => rfl

theorem passBegun (w : World) (id : StoreId) : w.Retains (w.passBegun id) := by
  rw [World.passBegun]
  exact ((note w (e := .passBegan id) (·)).trans (modifyStore _ _ _)).trans (modifyRuntime _ _ _)

theorem passEnded (w : World) (id : StoreId) (rt : RuntimeId) : w.Retains (w.passEnded id rt) := by
  rw [World.passEnded]
  exact ((modifyRuntime w rt _).trans (modifyStore _ _ _)).trans (note _ (·))

theorem passPostponed (w : World) (id : StoreId) : w.Retains (w.passPostponed id) := by
  rw [World.passPostponed]
  exact (note w (e := .passPostponed id) (·)).trans (modifyStore _ _ _)

theorem withSubscription (w : World) (id : StoreId) (callback : Closure) :
    w.Retains (w.withSubscription id callback) :=
  (note w (e := .subscribed _) (·)).trans
    (of_eq (fun h => by cases h <;> rfl) (fun _ => rfl) rfl)

theorem callBegun (w : World) (sub : SubscriptionId) (j : Json) : w.Retains (w.callBegun sub j) := by
  rw [World.callBegun]
  exact (note w (e := .delivered sub j) (·)).trans (modifySubscription _ _ _)

theorem callEnded (w : World) (sub : SubscriptionId) : w.Retains (w.callEnded sub) := by
  rw [World.callEnded]
  exact (modifySubscription w sub _).trans (note _ (·))

theorem withStore (w : World) (state : ObjectId) : w.Retains (w.withStore state) := by
  rw [World.withStore]
  refine trans ?_ (pushNode _ (fun _ h => by cases h) (by rintro e ⟨⟩; rfl))
  exact of_eq (fun h => by cases h <;> rfl) (fun _ => rfl) rfl

end Retains

theorem mem_readers_trackedBy_iff (w : World) {n m : NodeId} {h x : Handle} {key k : Key}
    (hv : h.Valid w) : (k, m) ∈ (w.trackedBy n h key).readers x ↔
      (k, m) ∈ w.readers x ∨ m = n ∧ x = h ∧ k = key := by
  rw [World.trackedBy]
  split
  · next hr =>
    rw [List.contains_iff_mem, readers_note] at hr
    rw [readers_note, or_iff_left_of_imp]
    rintro ⟨rfl, rfl, rfl⟩
    exact hr
  · have hv' : h.Valid (w.note (.tracked n h key)) := hv
    rw [readers_modifySources, readers_modifyReaders]
    by_cases hx : x = h
    · rw [if_pos ⟨hx, hv'⟩, hx, readers_note]
      simp [Readers.add, and_comm]
    · rw [if_neg fun h => hx h.1, readers_note, or_iff_left fun h => hx h.2.1]

theorem count_sources_trackedBy (w : World) {n m : NodeId} {h x : Handle} {key k : Key}
    (hn : n < w.nodes.size) : ((w.trackedBy n h key).sources m).count (x, k) =
      (w.sources m).count (x, k) +
        if (m = n ∧ x = h ∧ k = key) ∧ (key, n) ∉ w.readers h then 1 else 0 := by
  have before : (w.note (.tracked n h key)).sources m = w.sources m := rfl
  rw [World.trackedBy]
  split
  · next hr =>
    rw [List.contains_iff_mem, readers_note] at hr
    rw [before, if_neg fun hp => hp.2 hr, Nat.add_zero]
  · next hr =>
    rw [List.contains_iff_mem, readers_note] at hr
    have size : n < ((w.note (.tracked n h key)).modifyReaders h (·.add key n)).nodes.size :=
      Nat.lt_of_lt_of_le hn (Extends.modifyReaders (w.note (.tracked n h key)) h _).nodes
    rw [sources_modifySources, sources_modifyReaders, before]
    by_cases hm : n = m
    · subst hm
      rw [if_pos ⟨rfl, size⟩, List.count_append]
      by_cases hx : x = h ∧ k = key
      · obtain ⟨rfl, rfl⟩ := hx
        rw [List.count_singleton_self, if_pos ⟨⟨rfl, rfl, rfl⟩, hr⟩]
      · have hne : (x, k) ∉ [(h, key)] := fun hp => hx (Prod.mk.inj (List.mem_singleton.1 hp))
        rw [if_neg fun hp => hx hp.1.2, List.count_eq_zero.2 hne]
    · rw [if_neg fun hp => hm hp.1, if_neg fun hp => hm hp.1.1.symm, Nat.add_zero]

theorem enlisted_start (settings : Settings) (hook : Hook) :
    (World.start settings hook).Enlisted where
  enrolled n h key := iff_of_false
    (fun hp => List.not_mem_nil ((mirrored_start settings hook).read h key n hp)) nofun
  counted n h key := by simp [World.start, sources, enrolments]

namespace Enlisted

variable {w w' : World} (hw : w.Enlisted)
include hw

theorem retains (h : w.Retains w') : w'.Enlisted := by
  obtain ⟨new, hn, hr⟩ := h.past
  refine ⟨fun n x key => ?_, fun n x key => ?_⟩
  · rw [h.readers, hn, (enrolled_append hr).1]
    exact hw.enrolled n x key
  · rw [h.sources, hn, (enrolled_append hr).2]
    exact hw.counted n x key

/-- A node that reads what it is not registered on is registered on it, and lists it once more. -/
theorem trackedBy {n : NodeId} (hn : n < w.nodes.size) {h : Handle} (hv : h.Valid w) (key : Key) :
    (w.trackedBy n h key).Enlisted := by
  have past := w.history_trackedBy n h key
  refine ⟨fun m x k => ?_, fun m x k => ?_⟩
  · by_cases hp : m = n ∧ x = h ∧ k = key
    · obtain ⟨rfl, rfl, rfl⟩ := hp
      rw [past, enrolled_tracked]
      exact iff_of_true ((w.mem_readers_trackedBy_iff hv).2 (.inr ⟨rfl, rfl, rfl⟩)) rfl
    · have hne : (.tracked n h key : Event) ≠ .tracked m x k := by simpa [eq_comm] using hp
      rw [past, enrolled_cons hne (by simp) (by simp), w.mem_readers_trackedBy_iff hv, or_iff_left hp]
      exact hw.enrolled m x k
  · rw [w.count_sources_trackedBy hn, hw.counted, past]
    by_cases hp : m = n ∧ x = h ∧ k = key
    · obtain ⟨rfl, rfl, rfl⟩ := hp
      rw [enrolments_tracked]
      cases hr : Reactivity.enrolled m x k w.history with
      | true => simp [(hw.enrolled m x k).2 hr]
      | false =>
        have hnot : (k, m) ∉ w.readers x := fun hp =>
          Bool.false_ne_true (hr.symm.trans ((hw.enrolled m x k).1 hp))
        simp [hnot]
    · have hne : (.tracked n h key : Event) ≠ .tracked m x k := by simpa [eq_comm] using hp
      rw [enrolments_cons hne (by simp), if_neg fun h => hp h.1, Nat.add_zero]

theorem trackedIn (hs : w.Sane) {rt : RuntimeId} (hrt : rt < w.runtimes.size) {h : Handle}
    (hv : h.Valid w) (key : Key) : (w.trackedIn rt h key).Enlisted := by
  rw [World.trackedIn]
  split
  · exact hw
  · next n hn => exact hw.trackedBy (mem_nodes_of_currentReader hs hrt hn) hv key

/-- A node that is taken from everything lists nothing, and the others are left alone. -/
theorem clearedOf (hm : w.Mirrored) (n : NodeId) : (w.clearedOf n).Enlisted := by
  have past := w.history_clearedOf n
  refine ⟨fun m x k => ?_, fun m x k => ?_⟩
  · by_cases hmn : m = n
    · subst hmn
      rw [past, enrolled_cleared]
      exact iff_of_false (hm.not_mem_readers_clearedOf m x k) nofun
    · have hne : (.cleared n : Event) ≠ .cleared m := by simpa using Ne.symm hmn
      rw [past, enrolled_cons (by simp) hne (by simp), ← hw.enrolled]
      exact ⟨fun hp => (readers_clearedOf_sublist n w x).subset hp,
        (Spares.clearedOf w (Ne.symm hmn)).registered x k⟩
  · by_cases hmn : m = n
    · subst hmn
      rw [past, enrolments_cleared, sources_clearedOf_self, List.count_nil]
    · have hne : (.cleared n : Event) ≠ .cleared m := by simpa using Ne.symm hmn
      rw [past, enrolments_cons (by simp) hne, sources_clearedOf n w hmn]
      exact hw.counted m x k

theorem taken (h : Handle) (key : Key) : (w.taken h key).Enlisted := by
  have past := w.history_taken h key
  refine ⟨fun m x k => ?_, fun m x k => ?_⟩
  · by_cases hp : x = h ∧ k = key
    · obtain ⟨rfl, rfl⟩ := hp
      rw [past, enrolled_triggered]
      exact iff_of_false (w.not_mem_readers_taken x k m) nofun
    · have hne : (.triggered h key : Event) ≠ .triggered x k := by simpa [eq_comm] using hp
      rw [past, enrolled_cons (by simp) (by simp) hne, ← hw.enrolled, World.taken, readers_modifyReaders,
        readers_note]
      split
      · next hx =>
        have hk : k ≠ key := fun hk => hp ⟨hx.1, hk⟩
        rw [hx.1]
        simp [Readers.clear, hk]
      · rfl
  · rw [past, enrolments_cons (by simp) (by simp), World.taken, sources_modifyReaders]
    exact hw.counted m x k

theorem computing (hm : w.Mirrored) (n : NodeId) (rt : RuntimeId) : (w.computing n rt).Enlisted := by
  have hmemo : (w.clearedOf n).Retains ((w.clearedOf n).modifyMemo n fun m =>
      { m with dirty := false }) := .modifyMemo _ n fun _ => ⟨rfl, rfl⟩
  exact (hw.clearedOf hm n).retains ((hmemo.trans (.modifyRuntime _ rt _)).trans (.note _ id))

theorem running (hm : w.Mirrored) (n : NodeId) (rt : RuntimeId) : (w.running n rt).Enlisted := by
  have hcontext : (w.clearedOf n).Retains ((w.clearedOf n).pushContext rt (some n)) :=
    .modifyRuntime _ rt _
  have heffect := hcontext.trans (.modifyEffect _ n (f := fun e => { e with running := true })
    fun _ => rfl)
  exact (hw.clearedOf hm n).retains (heffect.trans (.note _ id))

theorem disposing (hm : w.Mirrored) (n : NodeId) : (w.disposing n).Enlisted := by
  have hq : w.Quiet (w.modifyEffect n fun e => { e with disposed := true }) :=
    .modifyEffect w n fun _ => rfl
  have hr : w.Retains (w.modifyEffect n fun e => { e with disposed := true }) :=
    .modifyEffect w n fun _ => rfl
  exact (hw.retains hr).clearedOf (hm.quiet hq) n

end Enlisted

end World

theorem Aside.retains {w w' : World} (h : Aside w w') : w.Retains w' := by
  cases h with
  | bind name b valid =>
    exact (World.Retains.note w id).trans (.of_eq (fun h => by cases h <;> rfl) (fun _ => rfl) rfl)
  | unbind name =>
    exact (World.Retains.note w id).trans (.of_eq (fun h => by cases h <;> rfl) (fun _ => rfl) rfl)
  | log r => exact .of_eq (fun h => by cases h <;> rfl) (fun _ => rfl) rfl
  | clearLog => exact .of_eq (fun h => by cases h <;> rfl) (fun _ => rfl) rfl
  | external content => exact .of_eq (fun h => by cases h <;> rfl) (fun _ => rfl) rfl
  | task rt tasks h => exact .of_eq (fun h => by cases h <;> rfl) (fun _ => rfl) rfl
  | hold _ => exact .modifyStore _ _ _
  | release _ _ => exact .modifyStore _ _ _
  | cancel sub _ =>
    obtain ⟨_, _, h⟩ := w.cancelled_eq sub
    rw [h]
    exact (World.Retains.note w id).trans (.of_eq (fun h => by cases h <;> rfl) (fun _ => rfl) rfl)
  | _ => exact .note w id

theorem Edit.retains {w w' : World} {write : Write} (h : Edit w write w') : w.Retains w' := by
  have hn : w.Retains (w.note (.wrote write)) := .note w id
  cases h with
  | setProperty => exact hn.trans (.modifyObject _ _ fun _ => rfl)
  | addProperty => exact hn.trans (.modifyObject _ _ fun _ => rfl)
  | removeProperty => exact hn.trans (.modifyObject _ _ fun _ => rfl)
  | setSlot => exact hn.trans (.modifyArray _ _ fun _ => rfl)
  | addSlot => exact hn.trans (.modifyArray _ _ fun _ => rfl)

theorem Step.enlisted {c c' : Config} (h : Step c c') (hc : c.Sane) (hm : c.world.Mirrored)
    (hw : c.world.Enlisted) : c'.world.Enlisted := by
  cases h with
  | aside h => exact hw.retains h.retains
  | @track w g rt n x key _ valid owner _ reader =>
    have hrt : rt < w.runtimes.size := owner ▸ hc.world.owner_lt valid
    exact hw.trackedBy (World.mem_nodes_of_currentReader hc.world hrt reader) valid key
  | newObject _ _ _ =>
    refine hw.retains ((World.Retains.note _ id).trans (.of_eq ?_ (fun _ => rfl) rfl))
    exact World.readers_pushObject _ rfl
  | newArray _ _ _ =>
    refine hw.retains ((World.Retains.note _ id).trans (.of_eq ?_ (fun _ => rfl) rfl))
    exact World.readers_pushArray _ rfl
  | resolveObject _ _ => exact hw.retains (.modifyObject _ _ fun _ => rfl)
  | resolveArray _ _ => exact hw.retains (.modifyArray _ _ fun _ => rfl)
  | write _ _ _ edit => exact hw.retains edit.retains
  | @endChange w g rt array before after _ _ =>
    have hq : w.Retains ((w.note (.changeEnded array)).note (.wrote (.items array before after))) :=
      (World.Retains.note w id).trans (.note _ id)
    exact hw.retains (hq.trans (.modifyArray _ _ fun _ => rfl))
  | trigger => exact hw.taken _ _
  | tellEffect _ _ => exact hw.retains (.queuedIn _ _ _)
  | tellDirty _ _ => exact hw.retains (.madeDirty _ _)
  | tellClean _ _ => exact hw.retains (.madeDirty _ _)
  | schedule _ _ _ _ _ _ =>
    exact hw.retains ((World.Retains.note _ id).trans (.queuedIn _ _ _))
  | markDirty _ _ _ => exact hw.retains ((World.Retains.note _ id).trans (.madeDirty _ _))
  | markClean _ _ _ _ => exact hw.retains ((World.Retains.note _ id).trans (.madeDirty _ _))
  | newMemo _ _ _ =>
    refine hw.retains (.pushNode _ ?_ nofun)
    rintro m ⟨⟩
    exact ⟨rfl, rfl⟩
  | @reuse w g n m r _ memo _ _ _ =>
    have hrt : m.runtime < w.runtimes.size := (hc.world.memos n m memo).1
    have hv : (Handle.memo n).Valid w := Option.isSome_of_eq_some memo
    exact (hw.trackedIn hc.world hrt hv _).retains (.note _ id)
  | @beginCompute w g n m _ memo _ _ =>
    have hrt : m.runtime < w.runtimes.size := (hc.world.memos n m memo).1
    have hv : (Handle.memo n).Valid w := Option.isSome_of_eq_some memo
    exact (hw.trackedIn hc.world hrt hv _).computing (hm.trackedIn hc.world hrt _ _) n m.runtime
  | endCompute _ _ _ => exact hw.retains (.computed _ _ _ _)
  | abandonCompute => exact hw.retains (.modifyRuntime _ _ _)
  | endReading _ _ => exact hw.retains (.gotBy _ _ _ _)
  | newEffect _ _ _ _ _ =>
    refine hw.retains (.pushNode _ nofun ?_)
    rintro e ⟨⟩
    rfl
  | newStore _ _ _ => exact hw.retains (.withStore _ _)
  | addCleanup _ _ _ _ _ _ =>
    exact hw.retains ((World.Retains.note _ id).trans (.modifyEffect _ _ fun _ => rfl))
  | beginCleaning _ => exact hw.retains (.cleaning _ _ _)
  | endCleaning => exact hw.retains ((World.Retains.modifyRuntime _ _ _).trans (.note _ id))
  | abandonCleaning _ => exact hw.retains (.modifyRuntime _ _ _)
  | advance h => cases h <;> exact hw.retains (.note _ id)
  | keep _ _ _ => exact hw.retains (.modifyEffect _ _ fun _ => rfl)
  | clearRunning _ _ => exact hw.clearedOf hm _
  | beginRun _ _ _ _ => exact hw.running hm _ _
  | endRun _ => exact hw.retains (.ran _ _ _)
  | prime _ _ => exact hw.retains (.modifyEffect _ _ fun _ => rfl)
  | watchPass _ _ _ _ => exact hw.retains (.passBegun _ _)
  | watchPostpone _ _ _ => exact hw.retains (.passPostponed _ _)
  | endWatch _ => exact hw.retains (.ran _ _ _)
  | abandonRun => exact hw.retains (.stopped _ _ _)
  | dispose _ _ _ _ => exact (hw.disposing hm _).retains (.cleaning _ _ _)
  | retire _ => exact (hw.disposing hm _).retains (.note _ id)
  | mask _ _ _ => exact hw.retains (.modifyRuntime _ _ _)
  | unmask => exact hw.retains (.modifyRuntime _ _ _)
  | beginPass _ _ _ _ => exact hw.retains ((World.Retains.note _ id).trans (.passBegun _ _))
  | endPass => exact hw.retains (.passEnded _ _ _)
  | postpone _ _ _ => exact hw.retains ((World.Retains.note _ id).trans (.passPostponed _ _))
  | forgo _ => exact hw.retains (.modifyStore _ _ _)
  | takeUp _ _ _ => exact hw.retains ((World.Retains.modifyStore _ _ _).trans (.note _ id))
  | beginCall _ _ _ | greet _ _ => exact hw.retains (.callBegun _ _ _)
  | subscribe _ _ _ _ =>
    exact hw.retains ((World.Retains.withSubscription _ _ _).trans (.modifyRuntime _ _ _))
  | endCall => exact hw.retains (.callEnded _ _)
  | newRuntime _ => exact hw.retains (.of_eq (fun h => by cases h <;> rfl) (fun _ => rfl) rfl)
  | beginFlush _ _ _ _ => exact hw.retains ((World.Retains.note _ id).trans (.modifyRuntime _ _ _))
  | beginRound _ => exact hw.retains ((World.Retains.modifyRuntime _ _ _).trans (.note _ id))
  | giveUp _ _ => exact hw.retains ((World.Retains.modifyRuntime _ _ _).trans (.note _ id))
  | endFlush _ => exact hw.retains ((World.Retains.modifyRuntime _ _ _).trans (.note _ id))
  | see _ _ _ _ _ _ _ => exact hw.retains (.note _ id)
  | beginChange _ _ _ _ => exact hw.retains (.note _ id)
  | abandonChange => exact hw.retains (.note _ id)
  | beginTurn _ => exact hw.retains (.note _ id)
  | throw _ => exact hw.retains (.note _ id)
  | exhaust _ => exact hw.retains (.note _ id)
  | _ => exact hw

theorem Reaches.enlisted {settings : Settings} {hook : Hook} {c : Config}
    (h : Reaches (.start settings hook) c) : c.world.Enlisted := by
  induction h with
  | refl => exact World.enlisted_start settings hook
  | tail steps step ih =>
    exact step.enlisted (steps.sane (Config.start_sane settings hook)) steps.mirrored ih

/-- Whoever looks at a program finds that a node lists a part once for each time that it has read it
without being registered on it, since it was last taken from everything. It lists what it has read since
then, and each part once, unless it has read one again after a trigger of it. -/
theorem parts_listed_per_enrolment (settings : Settings) (hook : Hook) (depth : Nat) (es : List Expr) :
    Throughout settings hook depth es fun w => ∀ n,
      (∀ h key, (w.sources n).count (h, key) = enrolments n h key w.history) ∧
      (∀ h key, (h, key) ∈ w.sources n ↔ .tracked n h key ∈ sinceCleared n w.history) ∧
      ((w.sources n).Nodup ↔ ∀ h key, ¬ ReadAgain n h key (sinceCleared n w.history)) := by
  refine throughout_of_reaches (fun {c} hreach _ _ n => ?_) depth es
  have counted := hreach.enlisted.counted n
  refine ⟨counted, fun h key => ?_, ?_⟩
  · rw [← one_le_enrolments, ← counted, Nat.one_le_iff_ne_zero, Ne, List.count_eq_zero, not_not]
  · rw [List.nodup_iff_count_le_one]
    constructor
    · intro once h key hagain
      have htwo := two_le_enrolments.2 hagain
      have hone := once (h, key)
      rw [counted] at hone
      omega
    · rintro never ⟨h, key⟩
      rw [counted]
      exact Nat.le_of_lt_succ (Nat.lt_of_not_le fun htwo => never h key (two_le_enrolments.1 htwo))

def rereadingEffect : List Expr :=
  withObject [.assign "e" (.effect (.block [readProperty "x", writeProperty "x" (.literal .null),
    readProperty "x"]))]

/-- What the effect reads again after its own write it lists twice. -/
theorem part_listed_twice :
    (World.after .standard .manual 3 rereadingEffect).sources 0 =
      [(.object 0, .property "x"), (.object 0, .property "x")] := by
  cbv

end Reactivity
