import Reactivity.Proofs.Run.Readers
import Reactivity.Proofs.Run.Soundness

/-!
The two sides of the dependency graph agree: whoever is registered on a part of a thing lists it
among its sources, and has read it since it was last taken from everything. A trigger empties the
one side only, so that a node may list what it is no longer registered on, and twice; but whoever is
registered has read the part since it was last triggered.
-/

namespace Reactivity

/-- The events since a node was last taken from everything it was registered on, newest first. -/
def sinceCleared (n : NodeId) (history : List Event) : List Event :=
  history.takeWhile fun e =>
    match e with
    | .cleared m => m != n
    | _ => true

theorem sinceCleared_cons {n : NodeId} {e : Event} {history : List Event} (h : e ≠ .cleared n) :
    sinceCleared n (e :: history) = e :: sinceCleared n history := by
  rw [sinceCleared, List.takeWhile_cons_of_pos]
  · rfl
  · cases e with
    | cleared m => simpa using h
    | _ => rfl

theorem sinceCleared_append {n : NodeId} {new history : List Event} (h : .cleared n ∉ new) :
    sinceCleared n (new ++ history) = new ++ sinceCleared n history := by
  induction new with
  | nil => rfl
  | cons e new ih =>
    rw [List.mem_cons, not_or] at h
    rw [List.cons_append, sinceCleared_cons (Ne.symm h.1), ih h.2, List.cons_append]

/-- The events since a part of a thing was last triggered, newest first. -/
def sinceTriggered (h : Handle) (key : Key) (history : List Event) : List Event :=
  history.takeWhile fun e =>
    match e with
    | .triggered h' key' => h' != h || key' != key
    | _ => true

theorem sinceTriggered_cons {h : Handle} {key : Key} {e : Event} {history : List Event}
    (he : e ≠ .triggered h key) :
    sinceTriggered h key (e :: history) = e :: sinceTriggered h key history := by
  rw [sinceTriggered, List.takeWhile_cons_of_pos]
  · rfl
  · cases e with
    | triggered h' key' =>
      by_cases hh : h' = h
      · have hk : key' ≠ key := fun hk => he (hh ▸ hk ▸ rfl)
        simp [hk]
      · simp [hh]
    | _ => rfl

theorem sinceTriggered_append {h : Handle} {key : Key} {new history : List Event}
    (hn : .triggered h key ∉ new) :
    sinceTriggered h key (new ++ history) = new ++ sinceTriggered h key history := by
  induction new with
  | nil => rfl
  | cons e new ih =>
    rw [List.mem_cons, not_or] at hn
    rw [List.cons_append, sinceTriggered_cons (Ne.symm hn.1), ih hn.2, List.cons_append]

/-- The event says that the function of a node was started, or that somebody was taken from something
that they were registered on. -/
def Event.Resets : Event → Prop
  | .cleared _ | .started _ | .triggered .. => True
  | _ => False

namespace World

/-- Nobody is registered twice on the same part, and whoever is registered on a part lists it and
has read it in its latest run, and since it was last triggered. -/
structure Mirrored (w : World) : Prop where
  once : ∀ h, (w.readers h).Nodup
  listed : ∀ h key n, (key, n) ∈ w.readers h → (h, key) ∈ w.sources n
  read : ∀ h key n, (key, n) ∈ w.readers h → .tracked n h key ∈ sinceCleared n w.history
  run : ∀ h key n, (key, n) ∈ w.readers h → .tracked n h key ∈ sinceStart n w.history
  untriggered : ∀ h key n, (key, n) ∈ w.readers h →
    .tracked n h key ∈ sinceTriggered h key w.history

/-- Who is registered on something is registered on a thing that is there. -/
theorem valid_of_mem_readers {w : World} {h : Handle} {p : Key × NodeId} (hp : p ∈ w.readers h) :
    h.Valid w := by
  cases h with
  | object id =>
    by_contra hid
    rw [readers, object, Array.getElem?_eq_none (Nat.le_of_not_lt hid)] at hp
    cases hp
  | array id =>
    by_contra hid
    rw [readers, array, Array.getElem?_eq_none (Nat.le_of_not_lt hid)] at hp
    cases hp
  | memo n =>
    rw [readers] at hp
    cases hm : w.memo? n with
    | none =>
      rw [hm] at hp
      cases hp
    | some m => simp [Handle.Valid, hm]

theorem not_mem_readers_taken (w : World) (h : Handle) (key : Key) (n : NodeId) :
    (key, n) ∉ (w.taken h key).readers h := by
  intro hp
  have hv : h.Valid (w.note (.triggered h key)) := by
    rw [World.taken, readers_modifyReaders, readers_note] at hp
    split at hp
    · next hv => exact hv.2
    · exact valid_of_mem_readers hp
  rw [World.taken, readers_modifyReaders, if_pos ⟨rfl, hv⟩] at hp
  simpa using List.of_mem_filter hp

/-- `w.Quiet w'`: nobody is newly registered, no node forgets what it is registered on, and nobody is
registered on what was triggered. -/
structure Quiet (w w' : World) : Prop where
  readers : ∀ h, (w'.readers h).Sublist (w.readers h)
  sources : ∀ n, ∀ p ∈ w.sources n, p ∈ w'.sources n
  past : ∃ new, w'.history = new ++ w.history ∧ ∀ e ∈ new, e.Resets →
    ∃ h key, e = .triggered h key ∧ ∀ n, (key, n) ∉ w'.readers h

namespace Quiet

variable {w w' w'' : World}

theorem of_eq (hr : ∀ h, w'.readers h = w.readers h) (hs : ∀ n, w'.sources n = w.sources n)
    (hh : w'.history = w.history) : w.Quiet w' where
  readers h := hr h ▸ .refl _
  sources n _ hp := (hs n).symm ▸ hp
  past := ⟨[], hh, by simp⟩

theorem trans (h : w.Quiet w') (h' : w'.Quiet w'') : w.Quiet w'' where
  readers x := (h'.readers x).trans (h.readers x)
  sources n p hp := h'.sources n p (h.sources n p hp)
  past := by
    obtain ⟨new, hn, hr⟩ := h.past
    obtain ⟨new', hn', hr'⟩ := h'.past
    refine ⟨new' ++ new, by rw [hn', hn, List.append_assoc], fun e he hreset => ?_⟩
    rcases List.mem_append.1 he with he | he
    · exact hr' e he hreset
    · obtain ⟨x, key, rfl, hx⟩ := hr e he hreset
      exact ⟨x, key, rfl, fun n hm => hx n ((h'.readers x).subset hm)⟩

theorem note (w : World) {e : Event} (h : ¬ e.Resets) : w.Quiet (w.note e) where
  readers x := w.readers_note e x ▸ .refl _
  sources _ _ hp := hp
  past := ⟨[e], rfl, fun _ he hreset => absurd (List.mem_singleton.1 he ▸ hreset) h⟩

theorem modifyRuntime (w : World) (rt : RuntimeId) (f : Runtime → Runtime) :
    w.Quiet (w.modifyRuntime rt f) :=
  of_eq (fun h => by cases h <;> rfl) (fun _ => rfl) rfl

theorem modifyObject (w : World) (id : ObjectId) {f : ObjectState → ObjectState}
    (hf : ∀ o, (f o).readers = o.readers) : w.Quiet (w.modifyObject id f) :=
  of_eq (w.readers_modifyObject id hf) (fun _ => rfl) rfl

theorem modifyArray (w : World) (id : ArrayId) {f : ArrayState → ArrayState}
    (hf : ∀ a, (f a).readers = a.readers) : w.Quiet (w.modifyArray id f) :=
  of_eq (w.readers_modifyArray id hf) (fun _ => rfl) rfl

theorem modifyEffect (w : World) (n : NodeId) {f : Effect → Effect}
    (hf : ∀ e, (f e).sources = e.sources) : w.Quiet (w.modifyEffect n f) :=
  of_eq (w.readers_modifyEffect n f) (fun m => w.sources_modifyEffect n m hf) rfl

theorem modifyMemo (w : World) (n : NodeId) {f : Memo → Memo}
    (hf : ∀ m, (f m).readers = m.readers ∧ (f m).sources = m.sources) :
    w.Quiet (w.modifyMemo n f) :=
  of_eq (w.readers_modifyMemo n fun m => (hf m).1)
    (fun m => w.sources_modifyMemo n m fun x => (hf x).2) rfl

theorem pushNode (w : World) {node : Node} (h : ∀ m, node = .memo m → m.readers = []) :
    w.Quiet (w.pushNode node) where
  readers x := w.readers_pushNode h x ▸ .refl _
  sources n p hp := by
    have hn : n < w.nodes.size := by
      by_contra hn
      rw [World.sources, Array.getElem?_eq_none (Nat.le_of_not_lt hn)] at hp
      cases hp
    rwa [w.sources_pushNode node hn]
  past := ⟨[], rfl, by simp⟩

theorem taken (w : World) (h : Handle) (key : Key) : w.Quiet (w.taken h key) where
  readers x := by
    rw [World.taken, readers_modifyReaders, readers_note]
    split
    · next hx => exact hx.1 ▸ List.filter_sublist
    · exact .refl _
  sources n p hp := by
    rw [World.taken, sources_modifyReaders]
    exact hp
  past := by
    refine ⟨[.triggered h key], w.history_taken h key, fun e he _ => ?_⟩
    exact ⟨h, key, List.mem_singleton.1 he, fun n => w.not_mem_readers_taken h key n⟩

theorem requested (w : World) (rt : RuntimeId) : w.Quiet (w.requested rt) := by
  have h : w.Quiet
      ((w.modifyRuntime rt fun r => { r with flushRequested := true }).note (.requested rt)) :=
    trans (modifyRuntime w rt _) (note _ id)
  rw [World.requested]
  split <;> exact h.trans (of_eq (fun h => by cases h <;> rfl) (fun _ => rfl) rfl)

theorem queuedIn (w : World) (rt : RuntimeId) (n : NodeId) : w.Quiet (w.queuedIn rt n) := by
  have h : w.Quiet
      ((w.note (.queued rt n)).modifyRuntime rt fun r => { r with queue := r.queue ++ [n] }) :=
    trans (note w id) (modifyRuntime _ rt _)
  rw [World.queuedIn]
  split
  · exact h
  · exact h.trans (requested _ rt)

theorem madeDirty (w : World) (n : NodeId) : w.Quiet (w.madeDirty n) :=
  modifyMemo w n fun _ => ⟨rfl, rfl⟩

theorem computed (w : World) (n : NodeId) (rt : RuntimeId) (r : Result) :
    w.Quiet (w.computed n rt r) := by
  rw [World.computed]
  exact ((modifyRuntime w rt _).trans (note _ id)).trans (modifyMemo _ n fun _ => ⟨rfl, rfl⟩)

theorem gotBy (w : World) (reader : Option NodeId) (n : NodeId) (r : Result) :
    w.Quiet (w.gotBy reader n r) := by
  cases reader with
  | none => exact note w id
  | some x => exact (note w id).trans (note _ id)

theorem stopped (w : World) (n : NodeId) (rt : RuntimeId) : w.Quiet (w.stopped n rt) := by
  rw [World.stopped]
  refine trans ?_ (modifyRuntime _ rt _)
  exact modifyEffect w n fun _ => rfl

theorem ran (w : World) (n : NodeId) (rt : RuntimeId) : w.Quiet (w.ran n rt) := by
  rw [World.ran]
  refine trans ?_ (modifyRuntime _ rt _)
  refine trans ?_ (modifyEffect _ n fun _ => rfl)
  refine trans ?_ (note _ id)
  exact modifyEffect w n fun _ => rfl

theorem cleaning (w : World) (n : NodeId) (rt : RuntimeId) : w.Quiet (w.cleaning n rt) := by
  rw [World.cleaning]
  refine trans ?_ (modifyRuntime _ rt _)
  exact modifyEffect w n fun _ => rfl

theorem passBegun (w : World) (id : StoreId) : w.Quiet (w.passBegun id) := by
  rw [World.passBegun]
  refine trans ?_ (modifyRuntime _ _ _)
  exact (note w (e := .passBegan id) fun h => h).trans
    (of_eq (fun h => by cases h <;> rfl) (fun _ => rfl) rfl)

theorem passEnded (w : World) (id : StoreId) (rt : RuntimeId) : w.Quiet (w.passEnded id rt) := by
  rw [World.passEnded]
  refine trans ?_ (note _ fun h => h)
  refine trans ?_ (of_eq (w := w.popContext rt) (fun h => by cases h <;> rfl) (fun _ => rfl) rfl)
  exact modifyRuntime _ _ _

theorem passPostponed (w : World) (id : StoreId) : w.Quiet (w.passPostponed id) := by
  rw [World.passPostponed]
  exact (note w (e := .passPostponed id) fun h => h).trans
    (of_eq (fun h => by cases h <;> rfl) (fun _ => rfl) rfl)

theorem withSubscription (w : World) (id : StoreId) (callback : Closure) :
    w.Quiet (w.withSubscription id callback) :=
  (note w (e := .subscribed _) fun h => h).trans
    (of_eq (fun h => by cases h <;> rfl) (fun _ => rfl) rfl)

theorem callBegun (w : World) (sub : SubscriptionId) (j : Json) : w.Quiet (w.callBegun sub j) := by
  rw [World.callBegun]
  exact (note w (e := .delivered sub j) fun h => h).trans
    (of_eq (fun h => by cases h <;> rfl) (fun _ => rfl) rfl)

theorem callEnded (w : World) (sub : SubscriptionId) : w.Quiet (w.callEnded sub) := by
  rw [World.callEnded]
  refine trans ?_ (note _ fun h => h)
  exact of_eq (fun h => by cases h <;> rfl) (fun _ => rfl) rfl

theorem withStore (w : World) (state : ObjectId) : w.Quiet (w.withStore state) := by
  rw [World.withStore]
  refine trans ?_ (pushNode _ (by simp))
  exact of_eq (fun h => by cases h <;> rfl) (fun _ => rfl) rfl

end Quiet

section RemoveReaders

variable (n : NodeId)

theorem readers_remove_sublist (w : World) (p : Handle × Key) (h : Handle) :
    ((w.modifyReaders p.1 (·.remove p.2 n)).readers h).Sublist (w.readers h) := by
  rw [readers_modifyReaders]
  split
  · next hx => exact hx.1 ▸ List.erase_sublist
  · exact .refl _

theorem readers_removeReaders_sublist (w : World) (ps : List (Handle × Key)) (h : Handle) :
    ((ps.foldl (fun w p => w.modifyReaders p.1 (·.remove p.2 n)) w).readers h).Sublist
      (w.readers h) := by
  induction ps generalizing w with
  | nil => exact .refl _
  | cons p ps ih => exact (ih _).trans (readers_remove_sublist n w p h)

/-- Where nobody is registered twice, it is enough to take the node from each part once. -/
theorem not_mem_readers_removeReaders (w : World) (ho : ∀ h, (w.readers h).Nodup)
    {ps : List (Handle × Key)} {h : Handle} {key : Key} (hp : (h, key) ∈ ps) :
    (key, n) ∉ (ps.foldl (fun w p => w.modifyReaders p.1 (·.remove p.2 n)) w).readers h := by
  induction ps generalizing w with
  | nil => cases hp
  | cons p ps ih =>
    rcases List.mem_cons.1 hp with rfl | hp
    · intro hm
      have hm' := (readers_removeReaders_sublist n _ ps h).subset hm
      rw [readers_modifyReaders] at hm'
      split at hm'
      · exact (ho h).not_mem_erase hm'
      · next hv => exact hv ⟨rfl, valid_of_mem_readers hm'⟩
    · exact ih _ (fun h => (ho h).sublist (readers_remove_sublist n w p h)) hp

theorem sources_removeReaders (w : World) (ps : List (Handle × Key)) (m : NodeId) :
    (ps.foldl (fun w p => w.modifyReaders p.1 (·.remove p.2 n)) w).sources m = w.sources m := by
  induction ps generalizing w with
  | nil => rfl
  | cons p ps ih => exact (ih _).trans (sources_modifyReaders w p.1 _ m)

theorem readers_clearedOf_sublist (w : World) (h : Handle) :
    ((w.clearedOf n).readers h).Sublist (w.readers h) := by
  have hs : ((w.note (.cleared n)).modifySources n fun _ => []).readers h = w.readers h :=
    readers_modifySources _ n _ h
  exact hs ▸ readers_removeReaders_sublist n _ _ h

theorem sources_clearedOf (w : World) {m : NodeId} (hm : m ≠ n) :
    (w.clearedOf n).sources m = w.sources m := by
  rw [clearedOf, sources_removeReaders, sources_modifySources, if_neg fun h => hm h.1.symm]
  rfl

end RemoveReaders

namespace Mirrored

variable {w w' : World} (hw : w.Mirrored)
include hw

theorem quiet (h : w.Quiet w') : w'.Mirrored := by
  obtain ⟨new, hnew, hresets⟩ := h.past
  have sub (x : Handle) (p : Key × NodeId) (hp : p ∈ w'.readers x) : p ∈ w.readers x :=
    (h.readers x).subset hp
  have cleared (n : NodeId) : .cleared n ∉ new := fun hm => by
    simpa using hresets _ hm trivial
  have started (n : NodeId) : .started n ∉ new := fun hm => by
    simpa using hresets _ hm trivial
  refine ⟨fun x => (hw.once x).sublist (h.readers x), fun x key n hp => ?_, fun x key n hp => ?_,
    fun x key n hp => ?_, fun x key n hp => ?_⟩
  · exact h.sources n _ (hw.listed x key n (sub x _ hp))
  · rw [hnew, sinceCleared_append (cleared n)]
    exact List.mem_append_right _ (hw.read x key n (sub x _ hp))
  · rw [hnew, sinceStart_append (started n)]
    exact List.mem_append_right _ (hw.run x key n (sub x _ hp))
  · have triggered : .triggered x key ∉ new := fun hm => by
      obtain ⟨x', key', he, hnot⟩ := hresets _ hm trivial
      obtain ⟨rfl, rfl⟩ := Event.triggered.inj he
      exact hnot n hp
    rw [hnew, sinceTriggered_append triggered]
    exact List.mem_append_right _ (hw.untriggered x key n (sub x _ hp))

theorem trackedBy {n : NodeId} (hn : n < w.nodes.size) (h : Handle) (key : Key) :
    (w.trackedBy n h key).Mirrored := by
  have hw' := hw.quiet (.note w (e := .tracked n h key) id)
  rw [World.trackedBy]
  split
  · exact hw'
  · next hfresh =>
    rw [List.contains_iff_mem] at hfresh
    have readers (x : Handle) : (((w.note (.tracked n h key)).modifyReaders h
        (·.add key n)).modifySources n (· ++ [(h, key)])).readers x =
          if x = h ∧ h.Valid w then (w.readers h).add key n else w.readers x :=
      (readers_modifySources _ n _ x).trans (readers_modifyReaders _ h x _)
    have sources (m : NodeId) (p : Handle × Key) (hp : p ∈ w.sources m) :
        p ∈ (((w.note (.tracked n h key)).modifyReaders h
          (·.add key n)).modifySources n (· ++ [(h, key)])).sources m := by
      have hs := sources_modifyReaders (w.note (.tracked n h key)) h (·.add key n) m
      rw [sources_modifySources, hs]
      split
      · exact List.mem_append_left _ hp
      · exact hp
    have size : n < ((w.note (.tracked n h key)).modifyReaders h (·.add key n)).nodes.size :=
      Nat.lt_of_lt_of_le hn (Extends.modifyReaders (w.note (.tracked n h key)) h _).nodes
    have history := history_modifyReaders (w.note (.tracked n h key)) h (·.add key n)
    -- Whoever is registered now was so before, or is the node that has just read the part.
    have before {x : Handle} {k : Key} {m : NodeId}
        (hp : (k, m) ∈ (((w.note (.tracked n h key)).modifyReaders h
          (·.add key n)).modifySources n (· ++ [(h, key)])).readers x) :
        (k, m) ∈ w.readers x ∨ x = h ∧ k = key ∧ m = n := by
      rw [readers] at hp
      split at hp
      · next hx =>
        rcases List.mem_append.1 hp with hp | hp
        · exact .inl (hx.1 ▸ hp)
        · obtain ⟨rfl, rfl⟩ := Prod.mk.inj (List.mem_singleton.1 hp)
          exact .inr ⟨hx.1, rfl, rfl⟩
      · exact .inl hp
    refine ⟨fun x => ?_, fun x k m hp => ?_, fun x k m hp => ?_, fun x k m hp => ?_,
      fun x k m hp => ?_⟩
    · rw [readers]
      split
      · exact List.nodup_append.2 ⟨hw.once h, by simp, fun p hp q hq hpq =>
          hfresh (List.mem_singleton.1 hq ▸ hpq ▸ hp)⟩
      · exact hw.once x
    · rcases before hp with hp | ⟨rfl, rfl, rfl⟩
      · exact sources m _ (hw.listed x k m hp)
      · rw [sources_modifySources, if_pos ⟨rfl, size⟩]
        exact List.mem_append_right _ (List.mem_singleton_self _)
    · change _ ∈ sinceCleared m ((w.note (.tracked n h key)).modifyReaders h (·.add key n)).history
      rw [history]
      rcases before hp with hp | ⟨rfl, rfl, rfl⟩
      · exact hw'.read x k m hp
      · rw [history_note, sinceCleared_cons (by simp)]
        exact List.mem_cons_self
    · change _ ∈ sinceStart m ((w.note (.tracked n h key)).modifyReaders h (·.add key n)).history
      rw [history]
      rcases before hp with hp | ⟨rfl, rfl, rfl⟩
      · exact hw'.run x k m hp
      · rw [history_note, sinceStart_cons (by simp)]
        exact List.mem_cons_self
    · change _ ∈ sinceTriggered x k
        ((w.note (.tracked n h key)).modifyReaders h (·.add key n)).history
      rw [history]
      rcases before hp with hp | ⟨rfl, rfl, rfl⟩
      · exact hw'.untriggered x k m hp
      · rw [history_note, sinceTriggered_cons (by simp)]
        exact List.mem_cons_self

theorem trackedIn (hs : w.Sane) {rt : RuntimeId} (hrt : rt < w.runtimes.size) (h : Handle)
    (key : Key) : (w.trackedIn rt h key).Mirrored := by
  rw [World.trackedIn]
  split
  · exact hw
  · next n hn => exact hw.trackedBy (mem_nodes_of_currentReader hs hrt hn) h key

theorem not_mem_readers_clearedOf (n : NodeId) (h : Handle) (key : Key) :
    (key, n) ∉ (w.clearedOf n).readers h := by
  intro hm
  have hp := hw.listed h key n ((readers_clearedOf_sublist n w h).subset hm)
  have ho (x : Handle) : (((w.note (.cleared n)).modifySources n fun _ => []).readers x).Nodup := by
    rw [readers_modifySources]
    exact hw.once x
  exact not_mem_readers_removeReaders n _ ho hp hm

theorem clearedOf (n : NodeId) : (w.clearedOf n).Mirrored := by
  have before {x : Handle} {k : Key} {m : NodeId} (hp : (k, m) ∈ (w.clearedOf n).readers x) :
      m ≠ n ∧ (k, m) ∈ w.readers x :=
    ⟨fun hmn => hw.not_mem_readers_clearedOf n x k (hmn ▸ hp),
      (readers_clearedOf_sublist n w x).subset hp⟩
  refine ⟨fun x => (hw.once x).sublist (readers_clearedOf_sublist n w x), fun x k m hp => ?_,
    fun x k m hp => ?_, fun x k m hp => ?_, fun x k m hp => ?_⟩
  · obtain ⟨hmn, hp⟩ := before hp
    rw [sources_clearedOf n w hmn]
    exact hw.listed x k m hp
  · obtain ⟨hmn, hp⟩ := before hp
    rw [history_clearedOf, sinceCleared_cons (by simpa using hmn.symm)]
    exact List.mem_cons_of_mem _ (hw.read x k m hp)
  · obtain ⟨-, hp⟩ := before hp
    rw [history_clearedOf, sinceStart_cons (by simp)]
    exact List.mem_cons_of_mem _ (hw.run x k m hp)
  · obtain ⟨-, hp⟩ := before hp
    rw [history_clearedOf, sinceTriggered_cons (by simp)]
    exact List.mem_cons_of_mem _ (hw.untriggered x k m hp)

theorem started {n : NodeId} (hn : ∀ h key, (key, n) ∉ w.readers h) :
    (w.note (.started n)).Mirrored := by
  refine ⟨hw.once, hw.listed, fun x k m hp => ?_, fun x k m hp => ?_, fun x k m hp => ?_⟩
  · rw [history_note, sinceCleared_cons (by simp)]
    exact List.mem_cons_of_mem _ (hw.read x k m hp)
  · have hmn : m ≠ n := fun hmn => hn x k (hmn ▸ hp)
    rw [history_note, sinceStart_cons (by simpa using hmn.symm)]
    exact List.mem_cons_of_mem _ (hw.run x k m hp)
  · rw [history_note, sinceTriggered_cons (by simp)]
    exact List.mem_cons_of_mem _ (hw.untriggered x k m hp)

/-- The function of a node is started right after the node was taken from everything. -/
theorem clearedOf_started {n : NodeId} (h : (w.clearedOf n).Quiet w') :
    (w'.note (.started n)).Mirrored :=
  ((hw.clearedOf n).quiet h).started fun x key hm =>
    hw.not_mem_readers_clearedOf n x key ((h.readers x).subset hm)

theorem computing (n : NodeId) (rt : RuntimeId) : (w.computing n rt).Mirrored := by
  refine hw.clearedOf_started (Quiet.trans ?_ (.modifyRuntime _ rt _))
  exact .modifyMemo _ n fun _ => ⟨rfl, rfl⟩

theorem running (n : NodeId) (rt : RuntimeId) : (w.running n rt).Mirrored := by
  have hq : (w.clearedOf n).Quiet ((w.clearedOf n).pushContext rt (some n)) :=
    .modifyRuntime _ rt _
  refine hw.clearedOf_started (hq.trans ?_)
  exact .modifyEffect _ n fun _ => rfl

theorem disposing (n : NodeId) : (w.disposing n).Mirrored := by
  refine clearedOf (hw.quiet ?_) n
  exact .modifyEffect w n fun _ => rfl

end Mirrored

end World

theorem Aside.quiet {w w' : World} (h : Aside w w') : w.Quiet w' := by
  cases h with
  | bind name b valid =>
    exact (World.Quiet.note w id).trans (.of_eq (fun h => by cases h <;> rfl) (fun _ => rfl) rfl)
  | unbind name =>
    exact (World.Quiet.note w id).trans (.of_eq (fun h => by cases h <;> rfl) (fun _ => rfl) rfl)
  | log r => exact .of_eq (fun h => by cases h <;> rfl) (fun _ => rfl) rfl
  | clearLog => exact .of_eq (fun h => by cases h <;> rfl) (fun _ => rfl) rfl
  | external content => exact .of_eq (fun h => by cases h <;> rfl) (fun _ => rfl) rfl
  | task rt tasks h => exact .of_eq (fun h => by cases h <;> rfl) (fun _ => rfl) rfl
  | hold _ => exact .of_eq (fun h => by cases h <;> rfl) (fun _ => rfl) rfl
  | release _ _ => exact .of_eq (fun h => by cases h <;> rfl) (fun _ => rfl) rfl
  | cancel sub _ =>
    obtain ⟨_, _, h⟩ := w.cancelled_eq sub
    rw [h]
    exact (World.Quiet.note w id).trans (.of_eq (fun h => by cases h <;> rfl) (fun _ => rfl) rfl)
  | _ => exact .note w id

theorem Edit.quiet {w w' : World} {write : Write} (h : Edit w write w') : w.Quiet w' := by
  have hn : w.Quiet (w.note (.wrote write)) := .note w id
  cases h with
  | setProperty => exact hn.trans (.modifyObject _ _ fun _ => rfl)
  | addProperty => exact hn.trans (.modifyObject _ _ fun _ => rfl)
  | removeProperty => exact hn.trans (.modifyObject _ _ fun _ => rfl)
  | setSlot => exact hn.trans (.modifyArray _ _ fun _ => rfl)
  | addSlot => exact hn.trans (.modifyArray _ _ fun _ => rfl)

theorem Step.mirrored {c c' : Config} (h : Step c c') (hc : c.Sane) (hw : c.world.Mirrored) :
    c'.world.Mirrored := by
  cases h with
  | aside h => exact hw.quiet h.quiet
  | @track w g rt n x key _ valid owner _ reader =>
    have hrt : rt < w.runtimes.size := owner ▸ hc.world.owner_lt valid
    exact hw.trackedBy (World.mem_nodes_of_currentReader hc.world hrt reader) x key
  | newObject _ _ _ =>
    refine hw.quiet ((World.Quiet.note _ id).trans (.of_eq ?_ (fun _ => rfl) rfl))
    exact World.readers_pushObject _ rfl
  | newArray _ _ _ =>
    refine hw.quiet ((World.Quiet.note _ id).trans (.of_eq ?_ (fun _ => rfl) rfl))
    exact World.readers_pushArray _ rfl
  | resolveObject _ _ => exact hw.quiet (.modifyObject _ _ fun _ => rfl)
  | resolveArray _ _ => exact hw.quiet (.modifyArray _ _ fun _ => rfl)
  | write _ _ _ edit => exact hw.quiet edit.quiet
  | @endChange w g rt array before after _ _ =>
    have hq : w.Quiet ((w.note (.changeEnded array)).note (.wrote (.items array before after))) :=
      (World.Quiet.note w id).trans (.note _ id)
    exact hw.quiet (hq.trans (.modifyArray _ _ fun _ => rfl))
  | trigger => exact hw.quiet (.taken _ _ _)
  | tellEffect _ _ => exact hw.quiet (.queuedIn _ _ _)
  | tellDirty _ _ => exact hw.quiet (.madeDirty _ _)
  | tellClean _ _ => exact hw.quiet (.madeDirty _ _)
  | schedule _ _ _ _ _ _ => exact hw.quiet ((World.Quiet.note _ id).trans (.queuedIn _ _ _))
  | markDirty _ _ _ => exact hw.quiet ((World.Quiet.note _ id).trans (.madeDirty _ _))
  | markClean _ _ _ _ => exact hw.quiet ((World.Quiet.note _ id).trans (.madeDirty _ _))
  | newMemo _ _ _ =>
    refine hw.quiet (.pushNode _ ?_)
    rintro m ⟨⟩
    rfl
  | @reuse w g n m r _ memo _ _ _ =>
    have hrt : m.runtime < w.runtimes.size := (hc.world.memos n m memo).1
    exact (hw.trackedIn hc.world hrt _ _).quiet (.note _ id)
  | @beginCompute w g n m _ memo _ _ =>
    have hrt : m.runtime < w.runtimes.size := (hc.world.memos n m memo).1
    exact (hw.trackedIn hc.world hrt _ _).computing n m.runtime
  | endCompute _ _ _ => exact hw.quiet (.computed _ _ _ _)
  | abandonCompute => exact hw.quiet (.modifyRuntime _ _ _)
  | endReading _ _ => exact hw.quiet (.gotBy _ _ _ _)
  | newEffect _ _ _ _ _ => exact hw.quiet (.pushNode _ (by simp))
  | newStore _ _ _ => exact hw.quiet (.withStore _ _)
  | addCleanup _ _ _ _ _ _ =>
    exact hw.quiet ((World.Quiet.note _ id).trans (.modifyEffect _ _ fun _ => rfl))
  | beginCleaning _ => exact hw.quiet (.cleaning _ _ _)
  | endCleaning => exact hw.quiet ((World.Quiet.modifyRuntime _ _ _).trans (.note _ id))
  | abandonCleaning _ => exact hw.quiet (.modifyRuntime _ _ _)
  | advance h => cases h <;> exact hw.quiet (.note _ id)
  | keep _ _ _ => exact hw.quiet (.modifyEffect _ _ fun _ => rfl)
  | clearRunning _ _ => exact hw.clearedOf _
  | beginRun _ _ _ _ => exact hw.running _ _
  | endRun _ => exact hw.quiet (.ran _ _ _)
  | prime _ _ => exact hw.quiet (.modifyEffect _ _ fun _ => rfl)
  | watchPass _ _ _ _ => exact hw.quiet (.passBegun _ _)
  | watchPostpone _ _ _ => exact hw.quiet (.passPostponed _ _)
  | endWatch _ => exact hw.quiet (.ran _ _ _)
  | abandonRun => exact hw.quiet (.stopped _ _ _)
  | dispose _ _ _ _ => exact (hw.disposing _).quiet (.cleaning _ _ _)
  | retire _ => exact (hw.disposing _).quiet (.note _ id)
  | mask _ _ _ => exact hw.quiet (.modifyRuntime _ _ _)
  | unmask => exact hw.quiet (.modifyRuntime _ _ _)
  | beginPass _ _ _ _ => exact hw.quiet ((World.Quiet.note _ id).trans (.passBegun _ _))
  | endPass => exact hw.quiet (.passEnded _ _ _)
  | postpone _ _ _ => exact hw.quiet ((World.Quiet.note _ id).trans (.passPostponed _ _))
  | forgo _ => exact hw.quiet (.of_eq (fun h => by cases h <;> rfl) (fun _ => rfl) rfl)
  | @takeUp w g id e _ _ _ =>
    have hq : w.Quiet (w.modifyStore id fun s => { s with pending := false }) :=
      .of_eq (fun h => by cases h <;> rfl) (fun _ => rfl) rfl
    exact hw.quiet (hq.trans (.note _ fun h => h))
  | beginCall _ _ _ | greet _ _ => exact hw.quiet (.callBegun _ _ _)
  | subscribe _ _ _ _ =>
    exact hw.quiet ((World.Quiet.withSubscription _ _ _).trans (.modifyRuntime _ _ _))
  | endCall => exact hw.quiet (.callEnded _ _)
  | newRuntime _ => exact hw.quiet (.of_eq (fun h => by cases h <;> rfl) (fun _ => rfl) rfl)
  | beginFlush _ _ _ _ => exact hw.quiet ((World.Quiet.note _ id).trans (.modifyRuntime _ _ _))
  | beginRound _ => exact hw.quiet ((World.Quiet.modifyRuntime _ _ _).trans (.note _ id))
  | giveUp _ _ => exact hw.quiet ((World.Quiet.modifyRuntime _ _ _).trans (.note _ id))
  | endFlush _ => exact hw.quiet ((World.Quiet.modifyRuntime _ _ _).trans (.note _ id))
  | see _ _ _ _ _ _ _ => exact hw.quiet (.note _ id)
  | beginChange _ _ _ _ => exact hw.quiet (.note _ id)
  | abandonChange => exact hw.quiet (.note _ id)
  | beginTurn _ => exact hw.quiet (.note _ id)
  | throw _ => exact hw.quiet (.note _ id)
  | exhaust _ => exact hw.quiet (.note _ id)
  | _ => exact hw

theorem World.mirrored_start (settings : Settings) (hook : Hook) :
    (World.start settings hook).Mirrored := by
  have none (h : Handle) : (World.start settings hook).readers h = [] := by
    cases h with
    | object id => simp [World.start, readers, object]; rfl
    | array id => simp [World.start, readers, array]; rfl
    | memo n => simp [World.start, readers, memo?]
  refine ⟨fun h => ?_, fun h key n hp => ?_, fun h key n hp => ?_, fun h key n hp => ?_,
    fun h key n hp => ?_⟩
  all_goals simp [none] at *

theorem Reaches.mirrored {settings : Settings} {hook : Hook} {c : Config}
    (h : Reaches (.start settings hook) c) : c.world.Mirrored := by
  induction h with
  | refl => exact World.mirrored_start settings hook
  | tail steps step ih => exact step.mirrored (steps.sane (Config.start_sane settings hook)) ih

/-- Registrations mirror the latest run, whatever a program does. A node that is taken from
everything is registered nowhere, and a change wakes nobody who has not read the part that changed
in its latest run. -/
theorem registrations_mirrored (settings : Settings) (hook : Hook) (depth : Nat) (es : List Expr) :
    Throughout settings hook depth es fun w => w.Mirrored ∧
      (∀ n h key, (key, n) ∉ ((clearSources n).run w).2.readers h) ∧
      ∀ n h key, .tracked n h key ∉ sinceStart n w.history →
        n ∉ ((takeReaders h key).run w).1 := by
  refine throughout_of_reaches (fun {c} hreach _ _ => ?_) depth es
  have hw := hreach.mirrored
  refine ⟨hw, hw.not_mem_readers_clearedOf, fun n h key hread hm => ?_⟩
  exact hread (hw.run h key n (Readers.mem_on.1 hm))

end Reactivity
