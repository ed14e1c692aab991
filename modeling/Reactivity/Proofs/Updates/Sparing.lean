import Reactivity.Proofs.Run.Invariant
import Reactivity.Proofs.Run.Readers
import Reactivity.Proofs.Updates.Conditions

namespace Reactivity

/-- The event says that the function of the node was started, or what it has read since. -/
def Event.Concerns (n : NodeId) : Event → Prop
  | .started m | .tracked m .. | .saw m .. => m = n
  | _ => False

namespace World

def isDirty (w : World) (n : NodeId) : Bool :=
  (w.memo? n).any (·.dirty)

def IsClean (w : World) (n : NodeId) : Prop :=
  ∃ m, w.memo? n = some m ∧ m.dirty = false

def isRunning (w : World) (n : NodeId) : Bool :=
  (w.effect? n).any (·.running)

def queue (w : World) (rt : RuntimeId) : List NodeId :=
  (w.runtime rt).queue

section Accessors

variable (w : World)

theorem queue_modifyRuntime (i j : RuntimeId) {f : Runtime → Runtime}
    (hf : ∀ r, (f r).queue = r.queue) : (w.modifyRuntime i f).queue j = w.queue j := by
  rw [queue, runtime_modifyRuntime]
  split
  · exact hf _
  · rfl

theorem nodes_queuedIn (rt : RuntimeId) (n : NodeId) : (w.queuedIn rt n).nodes = w.nodes := by
  rw [queuedIn]
  split
  · rfl
  · rw [requested]
    split <;> rfl

theorem mem_queue_queuedIn {rt : RuntimeId} (hrt : rt < w.runtimes.size) (n : NodeId) :
    n ∈ (w.queuedIn rt n).queue rt := by
  have h : n ∈ ((w.note (.queued rt n)).modifyRuntime rt fun r =>
      { r with queue := r.queue ++ [n] }).queue rt := by
    rw [queue, runtime_modifyRuntime, if_pos ⟨rfl, hrt⟩]
    exact List.mem_append_right _ (List.mem_singleton_self n)
  rw [queuedIn]
  split
  · exact h
  · rw [requested]
    have hr := queue_modifyRuntime ((w.note (.queued rt n)).modifyRuntime rt fun r =>
      { r with queue := r.queue ++ [n] }) rt rt (f := fun r => { r with flushRequested := true })
        fun _ => rfl
    split <;> exact hr.symm ▸ h

theorem isDirty_madeDirty {n : NodeId} {m : Memo} (h : w.memo? n = some m) :
    (w.madeDirty n).isDirty n := by
  rw [isDirty, madeDirty, memo?_modifyMemo, if_pos rfl, h]
  rfl

end Accessors

/-- `w.Spares n w'`: if `n` has been told of a change in `w`, it has been so in `w'`, and what it is
registered on in `w` it is registered on in `w'`. -/
structure Spares (w : World) (n : NodeId) (w' : World) : Prop where
  disposed : w.isDisposed n → w'.isDisposed n
  dirty : w.isDirty n → w'.isDirty n
  queued : ∀ rt, n ∈ w.queue rt → n ∈ w'.queue rt
  registered : ∀ h key, (key, n) ∈ w.readers h → (key, n) ∈ w'.readers h

namespace Spares

variable {w w' w'' : World} {n : NodeId}

theorem refl (w : World) (n : NodeId) : w.Spares n w :=
  ⟨id, id, fun _ => id, fun _ _ => id⟩

theorem trans (h : w.Spares n w') (h' : w'.Spares n w'') : w.Spares n w'' where
  disposed hn := h'.disposed (h.disposed hn)
  dirty hn := h'.dirty (h.dirty hn)
  queued rt hn := h'.queued rt (h.queued rt hn)
  registered x key hn := h'.registered x key (h.registered x key hn)

theorem note (w : World) (e : Event) : w.Spares n (w.note e) :=
  ⟨id, id, fun _ => id, fun _ _ => id⟩

theorem modifyRuntime (w : World) (rt : RuntimeId) {f : Runtime → Runtime}
    (hf : ∀ r, ∀ n ∈ r.queue, n ∈ (f r).queue) : w.Spares n (w.modifyRuntime rt f) where
  disposed := id
  dirty := id
  queued rt' hn := by
    rw [queue, runtime_modifyRuntime]
    split
    · exact hf _ n hn
    · exact hn
  registered _ _ := id

theorem modifyObject (w : World) (id : ObjectId) {f : ObjectState → ObjectState}
    (hf : ∀ o, (f o).readers = o.readers) : w.Spares n (w.modifyObject id f) where
  disposed hn := hn
  dirty hn := hn
  queued _ hn := hn
  registered h _ hn := (w.readers_modifyObject id hf h).symm ▸ hn

theorem modifyArray (w : World) (id : ArrayId) {f : ArrayState → ArrayState}
    (hf : ∀ a, (f a).readers = a.readers) : w.Spares n (w.modifyArray id f) where
  disposed hn := hn
  dirty hn := hn
  queued _ hn := hn
  registered h _ hn := (w.readers_modifyArray id hf h).symm ▸ hn

theorem modifyEffect (w : World) (m : NodeId) {f : Effect → Effect}
    (hf : ∀ e, e.disposed → (f e).disposed) : w.Spares n (w.modifyEffect m f) where
  disposed hn := by
    rw [isDisposed] at hn ⊢
    rw [effect?_modifyEffect]
    split
    · cases he : w.effect? n with
      | none => simp [he] at hn
      | some e =>
        rw [he] at hn
        exact hf e hn
    · exact hn
  dirty hn := by rwa [isDirty, memo?_modifyEffect]
  queued _ hn := hn
  registered h _ hn := (w.readers_modifyEffect m f h).symm ▸ hn

theorem modifyMemo (w : World) (m : NodeId) {f : Memo → Memo}
    (hd : m = n → ∀ x, x.dirty → (f x).dirty) (hr : ∀ x, (f x).readers = x.readers) :
    w.Spares n (w.modifyMemo m f) where
  disposed hn := by rwa [isDisposed, effect?_modifyMemo]
  dirty hn := by
    rw [isDirty] at hn ⊢
    rw [memo?_modifyMemo]
    split
    · next hmn =>
      cases hm : w.memo? n with
      | none => simp [hm] at hn
      | some x =>
        rw [hm] at hn
        exact hd hmn x hn
    · exact hn
  queued _ hn := hn
  registered h _ hn := (w.readers_modifyMemo m hr h).symm ▸ hn

theorem of_sameNodes (h : w.SameNodes w') (hq : w'.runtimes = w.runtimes)
    (hr : ∀ x key, (key, n) ∈ w.readers x → (key, n) ∈ w'.readers x) : w.Spares n w' where
  disposed hn := by
    cases he : w.effect? n with
    | none => simp [isDisposed, he] at hn
    | some e =>
      obtain ⟨e', he', hb⟩ := h.effect? he
      rw [isDisposed, he] at hn
      rw [isDisposed, he', Effect.of_bare hb]
      exact hn
  dirty hn := by
    cases hm : w.memo? n with
    | none => simp [isDirty, hm] at hn
    | some m =>
      obtain ⟨m', hm', hb⟩ := h.memo? hm
      rw [isDirty, hm] at hn
      rw [isDirty, hm', Memo.of_bare hb]
      exact hn
  queued rt hn := by rwa [queue, runtime, hq]
  registered := hr

theorem modifyReaders (w : World) (h : Handle) {f : Readers → Readers}
    (hf : ∀ r : Readers, ∀ key, (key, n) ∈ r → (key, n) ∈ f r) : w.Spares n (w.modifyReaders h f) := by
  refine of_sameNodes (.modifyReaders w h f) ?_ fun x key hn => ?_
  · cases h <;> rfl
  · rw [readers_modifyReaders]
    split
    · next hx => exact hf _ key (hx.1 ▸ hn)
    · exact hn

theorem modifySources (w : World) (m : NodeId) (f : List (Handle × Key) → List (Handle × Key)) :
    w.Spares n (w.modifySources m f) :=
  of_sameNodes (.modifySources w m f) rfl fun h _ hn => (w.readers_modifySources m f h).symm ▸ hn

theorem pushNode (w : World) (node : Node) : w.Spares n (w.pushNode node) where
  disposed hn := by
    rw [isDisposed] at hn ⊢
    cases he : w.effect? n with
    | none => simp [he] at hn
    | some e =>
      obtain ⟨e', he', -⟩ := (Extends.pushNode w node).effects n e he
      have hlt : n < w.nodes.size := lt_of_effect? (Option.isSome_of_eq_some he)
      rw [effect?_pushNode, if_neg (Nat.ne_of_lt hlt)]
      exact hn
  dirty hn := by
    rw [isDirty] at hn ⊢
    cases hm : w.memo? n with
    | none => simp [hm] at hn
    | some m =>
      have hlt : n < w.nodes.size := lt_of_memo? (Option.isSome_of_eq_some hm)
      rw [memo?_pushNode, if_neg (Nat.ne_of_lt hlt)]
      exact hn
  queued _ hn := hn
  registered h key hn := by
    cases h with
    | memo m =>
      simp only [readers] at hn ⊢
      cases hm : w.memo? m with
      | none => simp [hm] at hn
      | some x =>
        have hlt : m < w.nodes.size := lt_of_memo? (Option.isSome_of_eq_some hm)
        rw [memo?_pushNode, if_neg (Nat.ne_of_lt hlt)]
        exact hn
    | _ => exact hn

theorem trackedBy (w : World) (m : NodeId) (h : Handle) (key : Key) :
    w.Spares n (w.trackedBy m h key) := by
  rw [World.trackedBy]
  split
  · exact note w _
  · exact (note w _).trans ((modifyReaders _ h fun _ _ => List.mem_append_left _).trans
      (modifySources _ m _))

theorem removeReaders (w : World) {m : NodeId} (hmn : m ≠ n) (ps : List (Handle × Key)) :
    w.Spares n (ps.foldl (fun w p => w.modifyReaders p.1 (·.remove p.2 m)) w) := by
  induction ps generalizing w with
  | nil => exact refl w n
  | cons p ps ih =>
    refine (modifyReaders w p.1 fun r key hn => ?_).trans (ih _)
    exact (List.mem_erase_of_ne fun he => hmn (Prod.mk.inj he).2.symm).2 hn

theorem clearedOf (w : World) {m : NodeId} (hmn : m ≠ n) : w.Spares n (w.clearedOf m) :=
  (note w _).trans ((modifySources _ m _).trans (removeReaders _ hmn _))

theorem taken (w : World) {h : Handle} {key : Key} (hn : (key, n) ∉ w.readers h) :
    w.Spares n (w.taken h key) := by
  refine of_sameNodes (.taken w h key) (runtimes_taken w h key) fun x key' hx => ?_
  · rw [World.taken, readers_modifyReaders]
    split
    · next hxh =>
      obtain ⟨rfl, -⟩ := hxh
      refine List.mem_filter.2 ⟨hx, ?_⟩
      have hne : key' ≠ key := fun he => hn (he ▸ hx)
      simpa using hne
    · exact hx

theorem pushContext (w : World) (rt : RuntimeId) (reader : Option NodeId) :
    w.Spares n (w.pushContext rt reader) :=
  modifyRuntime w rt fun _ _ => id

theorem popContext (w : World) (rt : RuntimeId) : w.Spares n (w.popContext rt) :=
  modifyRuntime w rt fun _ _ => id

theorem requested (w : World) (rt : RuntimeId) : w.Spares n (w.requested rt) := by
  have h : w.Spares n
      ((w.modifyRuntime rt fun r => { r with flushRequested := true }).note (.requested rt)) := by
    refine trans ?_ (note _ _)
    exact modifyRuntime w rt fun _ _ => id
  rw [World.requested]
  split
  · exact h
  · exact h.trans { refl _ n with }
  · exact h.trans { refl _ n with }
  · exact h.trans { refl _ n with }

theorem queuedIn (w : World) (rt : RuntimeId) (m : NodeId) : w.Spares n (w.queuedIn rt m) := by
  have h : w.Spares n
      ((w.note (.queued rt m)).modifyRuntime rt fun r => { r with queue := r.queue ++ [m] }) :=
    (note w _).trans (modifyRuntime _ rt fun _ _ => List.mem_append_left _)
  rw [World.queuedIn]
  split
  · exact h
  · exact h.trans (requested _ rt)

theorem madeDirty (w : World) (m : NodeId) : w.Spares n (w.madeDirty m) :=
  modifyMemo w m (fun _ _ _ => rfl) fun _ => rfl

theorem computing (w : World) {m : NodeId} (hmn : m ≠ n) (rt : RuntimeId) :
    w.Spares n (w.computing m rt) := by
  rw [World.computing]
  refine trans ?_ (note _ _)
  refine trans ?_ (pushContext _ rt _)
  exact (clearedOf w hmn).trans (modifyMemo _ m (fun h => absurd h hmn) fun _ => rfl)

theorem computed (w : World) (m : NodeId) (rt : RuntimeId) (r : Result) :
    w.Spares n (w.computed m rt r) := by
  rw [World.computed]
  exact ((popContext w rt).trans (note _ _)).trans (modifyMemo _ m (fun _ _ => id) fun _ => rfl)

theorem gotBy (w : World) (reader : Option NodeId) (m : NodeId) (r : Result) :
    w.Spares n (w.gotBy reader m r) := by
  cases reader with
  | none => exact note w _
  | some x => exact (note w _).trans (note _ _)

theorem running (w : World) {m : NodeId} (hmn : m ≠ n) (rt : RuntimeId) :
    w.Spares n (w.running m rt) := by
  rw [World.running]
  refine trans ?_ (note _ _)
  exact ((clearedOf w hmn).trans (pushContext _ rt _)).trans (modifyEffect _ m fun _ => id)

theorem stopped (w : World) (m : NodeId) (rt : RuntimeId) : w.Spares n (w.stopped m rt) := by
  rw [World.stopped]
  refine trans ?_ (popContext _ rt)
  exact modifyEffect w m fun _ => id

theorem ran (w : World) (m : NodeId) (rt : RuntimeId) : w.Spares n (w.ran m rt) := by
  rw [World.ran]
  refine trans ?_ (popContext _ rt)
  refine trans ?_ (modifyEffect _ m fun _ => id)
  refine trans ?_ (note _ _)
  exact modifyEffect w m fun _ => id

theorem disposing (w : World) {m : NodeId} (hmn : m ≠ n) : w.Spares n (w.disposing m) := by
  rw [World.disposing]
  refine trans ?_ (clearedOf _ hmn)
  exact modifyEffect w m fun _ _ => rfl

theorem emptied (w : World) {rt : RuntimeId} (hn : n ∉ w.queue rt) :
    w.Spares n (w.modifyRuntime rt fun r => { r with queue := [] }) where
  disposed := id
  dirty := id
  queued rt' hq := by
    by_cases hrt : rt = rt'
    · exact absurd (hrt ▸ hq) hn
    · rwa [queue, runtime_modifyRuntime, if_neg fun h => hrt h.1]
  registered _ _ := id

theorem withStore (w : World) (state : ObjectId) : w.Spares n (w.withStore state) := by
  rw [World.withStore]
  refine trans ?_ (pushNode _ _)
  exact { refl w n with }

end Spares

end World

end Reactivity
