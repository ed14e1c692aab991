import Reactivity.Proofs.Run.Soundness

namespace Reactivity

namespace World

/-- `w.Keeps w'`: no node and no store is made, and the stores have as many holders as before. -/
structure Keeps (w w' : World) : Prop where
  nodes : w'.nodes.size = w.nodes.size
  stores : w'.stores.size = w.stores.size
  holders : ∀ id, (w'.store id).holders = (w.store id).holders

namespace Keeps

variable {w w' w'' : World}

theorem of_eq (hn : w'.nodes.size = w.nodes.size) (hs : w'.stores = w.stores) : w.Keeps w' :=
  ⟨hn, by rw [hs], fun id => by rw [store, store, hs]⟩

theorem refl (w : World) : w.Keeps w :=
  of_eq rfl rfl

theorem trans (h : w.Keeps w') (h' : w'.Keeps w'') : w.Keeps w'' :=
  ⟨h'.nodes.trans h.nodes, h'.stores.trans h.stores,
    fun id => (h'.holders id).trans (h.holders id)⟩

theorem note (w : World) (e : Event) : w.Keeps (w.note e) :=
  of_eq rfl rfl

theorem modifyRuntime (w : World) (rt : RuntimeId) (f : Runtime → Runtime) :
    w.Keeps (w.modifyRuntime rt f) :=
  of_eq rfl rfl

theorem modifyEffect (w : World) (n : NodeId) (f : Effect → Effect) :
    w.Keeps (w.modifyEffect n f) :=
  of_eq (by simp [World.modifyEffect]) rfl

theorem modifyMemo (w : World) (n : NodeId) (f : Memo → Memo) : w.Keeps (w.modifyMemo n f) :=
  of_eq (by simp [World.modifyMemo]) rfl

theorem modifyStore (w : World) (id : StoreId) {f : Store → Store}
    (hf : ∀ s, (f s).holders = s.holders) : w.Keeps (w.modifyStore id f) where
  nodes := rfl
  stores := by simp [World.modifyStore]
  holders j := by
    rw [store_modifyStore]
    split
    · exact hf _
    · rfl

theorem modifyReaders (w : World) (h : Handle) (f : Readers → Readers) :
    w.Keeps (w.modifyReaders h f) := by
  cases h with
  | memo n => exact modifyMemo w n _
  | _ => exact of_eq rfl rfl

theorem modifySources (w : World) (n : NodeId) (f : List (Handle × Key) → List (Handle × Key)) :
    w.Keeps (w.modifySources n f) :=
  of_eq (by simp [World.modifySources]) rfl

theorem trackedBy (w : World) (n : NodeId) (h : Handle) (key : Key) :
    w.Keeps (w.trackedBy n h key) := by
  rw [World.trackedBy]
  split
  · exact of_eq rfl rfl
  · exact (note w _).trans ((modifyReaders _ h _).trans (modifySources _ n _))

theorem trackedIn (w : World) (rt : RuntimeId) (h : Handle) (key : Key) :
    w.Keeps (w.trackedIn rt h key) := by
  rw [World.trackedIn]
  split
  · exact refl w
  · exact trackedBy w _ h key

theorem removeReaders (w : World) (n : NodeId) (ps : List (Handle × Key)) :
    w.Keeps (ps.foldl (fun w p => w.modifyReaders p.1 (·.remove p.2 n)) w) := by
  induction ps generalizing w with
  | nil => exact refl w
  | cons p ps ih => exact (modifyReaders w p.1 _).trans (ih _)

theorem clearedOf (w : World) (n : NodeId) : w.Keeps (w.clearedOf n) :=
  (note w _).trans ((modifySources _ n _).trans (removeReaders _ n _))

theorem taken (w : World) (h : Handle) (key : Key) : w.Keeps (w.taken h key) :=
  (note w _).trans (modifyReaders _ h _)

theorem requested (w : World) (rt : RuntimeId) : w.Keeps (w.requested rt) := by
  rw [World.requested]
  split <;> exact of_eq rfl rfl

theorem queuedIn (w : World) (rt : RuntimeId) (n : NodeId) : w.Keeps (w.queuedIn rt n) := by
  have h : w.Keeps ((w.note (.queued rt n)).modifyRuntime rt fun r =>
      { r with queue := r.queue ++ [n] }) := of_eq rfl rfl
  rw [World.queuedIn]
  split
  · exact h
  · exact h.trans (requested _ rt)

theorem gotBy (w : World) (reader : Option NodeId) (n : NodeId) (r : Result) :
    w.Keeps (w.gotBy reader n r) := by
  cases reader <;> exact of_eq rfl rfl

theorem computing (w : World) (n : NodeId) (rt : RuntimeId) : w.Keeps (w.computing n rt) := by
  rw [World.computing]
  refine trans ?_ (note _ _)
  refine trans ?_ (modifyRuntime _ rt _)
  exact (clearedOf w n).trans (modifyMemo _ n _)

theorem computed (w : World) (n : NodeId) (rt : RuntimeId) (r : Result) :
    w.Keeps (w.computed n rt r) := by
  rw [World.computed]
  refine trans ?_ (modifyMemo _ n _)
  exact (modifyRuntime w rt _).trans (note _ _)

theorem running (w : World) (n : NodeId) (rt : RuntimeId) : w.Keeps (w.running n rt) := by
  rw [World.running]
  refine trans ?_ (note _ _)
  refine trans ?_ (modifyEffect _ n _)
  exact (clearedOf w n).trans (modifyRuntime _ rt _)

theorem stopped (w : World) (n : NodeId) (rt : RuntimeId) : w.Keeps (w.stopped n rt) := by
  rw [World.stopped]
  exact (modifyEffect w n _).trans (modifyRuntime _ rt _)

theorem ran (w : World) (n : NodeId) (rt : RuntimeId) : w.Keeps (w.ran n rt) := by
  rw [World.ran]
  refine trans ?_ (modifyRuntime _ rt _)
  refine trans ?_ (modifyEffect _ n _)
  exact (modifyEffect w n _).trans (note _ _)

theorem disposing (w : World) (n : NodeId) : w.Keeps (w.disposing n) := by
  rw [World.disposing]
  exact (modifyEffect w n _).trans (clearedOf _ n)

theorem cleaning (w : World) (n : NodeId) (rt : RuntimeId) : w.Keeps (w.cleaning n rt) := by
  rw [World.cleaning]
  exact (modifyEffect w n _).trans (modifyRuntime _ rt _)

theorem passBegun (w : World) (id : StoreId) : w.Keeps (w.passBegun id) := by
  rw [World.passBegun]
  refine trans ?_ (modifyRuntime _ _ _)
  refine trans (note w (.passBegan id)) ?_
  exact modifyStore _ id fun _ => rfl

theorem passEnded (w : World) (id : StoreId) (rt : RuntimeId) : w.Keeps (w.passEnded id rt) := by
  rw [World.passEnded]
  have popped : w.Keeps (w.popContext rt) := of_eq rfl rfl
  refine trans (popped.trans ?_) (note _ _)
  exact modifyStore _ id fun _ => rfl

theorem passPostponed (w : World) (id : StoreId) : w.Keeps (w.passPostponed id) := by
  rw [World.passPostponed]
  refine trans (note w (.passPostponed id)) ?_
  exact modifyStore _ id fun _ => rfl

theorem withSubscription (w : World) (id : StoreId) (callback : Closure) :
    w.Keeps (w.withSubscription id callback) := by
  rw [World.withSubscription]
  refine trans ?_ (note _ _)
  refine trans ?_ (modifyStore _ id fun _ => rfl)
  exact of_eq rfl rfl

theorem cancelled (w : World) (sub : SubscriptionId) : w.Keeps (w.cancelled sub) := by
  rw [World.cancelled]
  refine trans ?_ (note _ _)
  split
  · refine trans ?_ (modifyStore _ _ fun _ => rfl)
    exact of_eq rfl rfl
  · exact of_eq rfl rfl

end Keeps

section WithStore

variable (w : World) (state : ObjectId)

theorem store_withStore (id : StoreId) : (w.withStore state).store id =
    if id = w.stores.size then
      { runtime := (w.object state).runtime, state := state, watcher := w.nodes.size }
    else w.store id := by
  simp only [withStore, store, pushNode, Array.getElem?_push]
  split <;> rfl

theorem effect?_withStore (n : NodeId) : (w.withStore state).effect? n =
    if n = w.nodes.size then
      some { runtime := (w.object state).runtime, job := .watchStore w.stores.size false }
    else w.effect? n :=
  effect?_pushNode ..

theorem size_stores_withStore : (w.withStore state).stores.size = w.stores.size + 1 :=
  Array.size_push ..

end WithStore

/-- Stores and their watchers belong to each other. -/
structure Linked (w : World) : Prop where
  watcher : ∀ id, id < w.stores.size → ∃ e primed, w.effect? (w.store id).watcher = some e ∧
    e.job = .watchStore id primed ∧ e.runtime = (w.store id).runtime
  store : ∀ n e id primed, w.effect? n = some e → e.job = .watchStore id primed →
    id < w.stores.size ∧ (w.store id).watcher = n
  /-- The watcher of a store goes with the last holder. -/
  gone : ∀ id, id < w.stores.size → (w.store id).holders = 0 → w.isDisposed (w.store id).watcher

namespace Linked

variable {w w' : World}

theorem of_size (hw : w.Linked) (he : w.Extends w') (nodes : w'.nodes.size = w.nodes.size)
    (stores : w'.stores.size = w.stores.size)
    (gone : ∀ id, id < w.stores.size → (w'.store id).holders = 0 →
      (w.store id).holders = 0 ∨ w.isDisposed (w.store id).watcher) : w'.Linked where
  watcher id hid := by
    rw [stores] at hid
    obtain ⟨e, primed, hn, hj, hr⟩ := hw.watcher id hid
    obtain ⟨-, hruntime, -, hwatcher⟩ := he.stores id hid
    obtain ⟨e', hn', hr', hf⟩ := he.effects _ e hn
    obtain ⟨primed', hj', -⟩ := Job.Follows.of_watchStore (hj ▸ hf)
    exact ⟨e', primed', hwatcher ▸ hn', hj', by rw [hr', hr, hruntime]⟩
  store n e' id primed hn' hj' := by
    have hlt : n < w.nodes.size := nodes ▸ lt_of_effect? (Option.isSome_of_eq_some hn')
    obtain ⟨e, hn⟩ : ∃ e, w.effect? n = some e := by
      cases hnode : w.nodes[n] with
      | effect e => exact ⟨e, by simp [effect?, Array.getElem?_eq_getElem hlt, hnode]⟩
      | memo m =>
        have hm : w.memo? n = some m := by simp [memo?, Array.getElem?_eq_getElem hlt, hnode]
        have hm' := he.isSome_memo? (Option.isSome_of_eq_some hm)
        rw [memo?_eq_none_of_effect? (Option.isSome_of_eq_some hn')] at hm'
        cases hm'
    obtain ⟨e'', hn'', -, hf⟩ := he.effects n e hn
    obtain rfl : e'' = e' := Option.some.inj (hn''.symm.trans hn')
    have hj : ∃ primed, e.job = .watchStore id primed := by
      rw [hj'] at hf
      cases hjob : e.job with
      | watchStore id' primed' =>
        rw [hjob] at hf
        exact ⟨primed', hf.1 ▸ rfl⟩
      | _ =>
        rw [hjob] at hf
        exact hf.elim
    obtain ⟨primed, hj⟩ := hj
    obtain ⟨hid, hwatcher⟩ := hw.store n e id primed hn hj
    exact ⟨stores ▸ hid, (he.stores id hid).2.2.2.trans hwatcher⟩
  gone id hid hzero := by
    rw [stores] at hid
    rw [(he.stores id hid).2.2.2]
    exact he.disposed _ ((gone id hid hzero).elim (hw.gone id hid) (·))

theorem keep (hw : w.Linked) (he : w.Extends w') (hk : w.Keeps w') : w'.Linked :=
  hw.of_size he hk.nodes hk.stores fun id _ hzero => .inl (hk.holders id ▸ hzero)

theorem pushNode (hw : w.Linked) {node : Node}
    (other : ∀ e, node = .effect e → e.job.isWatcher = false) : (w.pushNode node).Linked where
  watcher id hid := by
    obtain ⟨e, primed, hn, hj⟩ := hw.watcher id hid
    have hlt := lt_of_effect? (Option.isSome_of_eq_some hn)
    exact ⟨e, primed, (w.effect?_pushNode node _).trans ((if_neg (Nat.ne_of_lt hlt)).trans hn), hj⟩
  store n e id primed hn hj := by
    rw [effect?_pushNode] at hn
    split at hn
    · cases node with
      | effect e' =>
        obtain rfl := Option.some.inj hn
        have := other e' rfl
        rw [hj] at this
        cases this
      | memo m => cases hn
    · exact hw.store n e id primed hn hj
  gone id hid hzero := (Extends.pushNode w node).disposed _ (hw.gone id hid hzero)

theorem withStore (hw : w.Linked) (state : ObjectId) : (w.withStore state).Linked := by
  have hstore := w.store_withStore state
  have heffect := w.effect?_withStore state
  have hsize := w.size_stores_withStore state
  have older {id : StoreId} (hid : id < (w.withStore state).stores.size)
      (hne : id ≠ w.stores.size) : id < w.stores.size := by
    rw [hsize] at hid
    exact Nat.lt_of_le_of_ne (Nat.le_of_lt_succ hid) hne
  have he := Extends.withStore w state
  refine ⟨fun id hid => ?_, fun n e id primed hn hj => ?_, fun id hid hzero => ?_⟩
  · by_cases hne : id = w.stores.size
    · rw [hstore, if_pos hne]
      exact ⟨_, false, (heffect _).trans (if_pos rfl), hne ▸ rfl, rfl⟩
    · obtain ⟨e, primed, hn, hj⟩ := hw.watcher id (older hid hne)
      have hlt := lt_of_effect? (Option.isSome_of_eq_some hn)
      rw [hstore, if_neg hne, heffect, if_neg (Nat.ne_of_lt hlt)]
      exact ⟨e, primed, hn, hj⟩
  · rw [heffect] at hn
    split at hn
    · next hnew =>
      obtain rfl := Option.some.inj hn
      cases hj
      rw [hsize, hstore, if_pos rfl]
      exact ⟨Nat.lt_succ_self _, hnew.symm⟩
    · obtain ⟨hid, hwatcher⟩ := hw.store n e id primed hn hj
      rw [hsize, hstore, if_neg (Nat.ne_of_lt hid)]
      exact ⟨Nat.lt_succ_of_lt hid, hwatcher⟩
  · by_cases hne : id = w.stores.size
    · rw [hstore, if_pos hne] at hzero
      cases hzero
    · rw [hstore, if_neg hne] at hzero ⊢
      exact he.disposed _ (hw.gone id (older hid hne) hzero)

end Linked

end World

theorem Aside.linked {w w' : World} (h : Aside w w') (hw : w.Linked) : w'.Linked := by
  have he := h.extends
  cases h with
  | hold id =>
    refine hw.of_size he rfl (by simp [World.modifyStore]) fun j _ hzero => ?_
    rw [World.store_modifyStore] at hzero
    split at hzero
    · cases hzero
    · exact .inl hzero
  | release id last =>
    refine hw.of_size he rfl (by simp [World.modifyStore]) fun j _ hzero => ?_
    rw [World.store_modifyStore] at hzero
    split at hzero
    · next hj => exact .inr (hj.1 ▸ last (hj.1.symm ▸ hzero))
    · exact .inl hzero
  | cancel _ _ => exact hw.keep he (.cancelled ..)
  | _ => exact hw.keep he (.of_eq rfl rfl)

theorem Edit.keeps {w w' : World} {write : Write} (h : Edit w write w') : w.Keeps w' := by
  cases h <;> exact .of_eq rfl rfl

/-- What a step makes. -/
inductive Makes : Config → Config → Prop
  | aside {w w' : World} {g g' : List Frame} {u u' : Bool} (h : Aside w w') :
    Makes ⟨w, g, u⟩ ⟨w', g', u'⟩
  | nothing {w w' : World} {g g' : List Frame} {u u' : Bool} (h : w.Keeps w') :
    Makes ⟨w, g, u⟩ ⟨w', g', u'⟩
  | node {w : World} {node : Node} {g g' : List Frame} {u u' : Bool}
    (other : ∀ e, node = .effect e → e.job.isWatcher = false) :
    Makes ⟨w, g, u⟩ ⟨w.pushNode node, g', u'⟩
  | store {w : World} {state : ObjectId} {g : List Frame} (valid : state < w.objects.size) :
    Makes ⟨w, g, false⟩ ⟨w.withStore state, .created w.nodes.size :: g, false⟩

theorem Step.makes {c c' : Config} (h : Step c c') : Makes c c' := by
  cases h with
  | aside h => exact .aside h
  | track _ _ _ _ _ => exact .nothing (.trackedBy ..)
  | write _ _ _ edit => exact .nothing edit.keeps
  | trigger => exact .nothing (.taken ..)
  | tellEffect _ _ => exact .nothing (.queuedIn ..)
  | tellDirty _ _ | tellClean _ _ => exact .nothing (.modifyMemo ..)
  | schedule _ _ _ _ _ _ => exact .nothing (.trans (.note ..) (.queuedIn ..))
  | markDirty _ _ _ | markClean _ _ _ _ => exact .nothing (.trans (.note ..) (.modifyMemo ..))
  | newMemo _ _ _ => exact .node nofun
  | reuse _ _ _ _ _ => exact .nothing (.trans (.trackedIn ..) (.note ..))
  | beginCompute _ _ _ _ => exact .nothing (.trans (.trackedIn ..) (.computing ..))
  | endCompute _ _ _ => exact .nothing (.computed ..)
  | endReading _ _ => exact .nothing (.gotBy ..)
  | newEffect _ _ _ _ other =>
    refine .node ?_
    rintro e ⟨⟩
    exact other
  | newStore _ _ valid => exact .store valid
  | keep _ _ _ | prime _ _ => exact .nothing (.modifyEffect ..)
  | beginCleaning _ => exact .nothing (.cleaning ..)
  | addCleanup _ _ _ _ _ _ => exact .nothing (.trans (.note ..) (.modifyEffect ..))
  | clearRunning _ _ => exact .nothing (.clearedOf ..)
  | beginRun _ _ _ _ => exact .nothing (.running ..)
  | endRun _ | endWatch _ => exact .nothing (.ran ..)
  | abandonRun => exact .nothing (.stopped ..)
  | dispose _ _ _ _ => exact .nothing (.trans (.disposing ..) (.cleaning ..))
  | retire _ => exact .nothing (.trans (.disposing ..) (.note ..))
  | watchPass _ _ _ _ => exact .nothing (.passBegun ..)
  | beginPass _ _ _ _ => exact .nothing (.trans (.note ..) (.passBegun ..))
  | watchPostpone _ _ _ => exact .nothing (.passPostponed ..)
  | postpone _ _ _ => exact .nothing (.trans (.note ..) (.passPostponed ..))
  | endPass => exact .nothing (.passEnded ..)
  | subscribe _ _ _ _ => exact .nothing (.trans (.withSubscription ..) (.modifyRuntime ..))
  | forgo _ => exact .nothing (.modifyStore _ _ fun _ => rfl)
  | takeUp _ _ _ =>
    refine .nothing (.trans ?_ (.note ..))
    exact .modifyStore _ _ fun _ => rfl
  | _ => exact .nothing (.of_eq rfl rfl)

theorem Step.linked {c c' : Config} (h : Step c c') (hw : c.world.Linked) : c'.world.Linked := by
  have he := h.extends
  cases h.makes with
  | aside ha => exact ha.linked hw
  | nothing hk => exact hw.keep he hk
  | node other => exact hw.pushNode other
  | store => exact hw.withStore _

theorem Aside.size_stores {w w' : World} (h : Aside w w') : w'.stores.size = w.stores.size := by
  cases h with
  | hold | release => exact Array.size_modify
  | cancel _ _ => exact (World.Keeps.cancelled ..).stores
  | _ => rfl

theorem Reaches.linked {settings : Settings} {hook : Hook} {c : Config}
    (h : Reaches (.start settings hook) c) : c.world.Linked := by
  induction h with
  | refl =>
    refine ⟨fun _ hid => absurd hid (Nat.not_lt_zero _), fun n e _ _ he => ?_,
      fun _ hid => absurd hid (Nat.not_lt_zero _)⟩
    simp [Config.start, World.start, World.effect?] at he
  | tail _ step ih => exact step.linked ih

end Reactivity
