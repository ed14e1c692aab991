import Reactivity.Proofs.Stores.Upkeep

namespace Reactivity

section Variables

variable {held : List Binding} {w : World}

theorem run_unsubscribe (sub : SubscriptionId) (w : World) :
    (unsubscribe sub).run w =
      ((), if (w.subscription sub).active then w.cancelled sub else w) := by
  rw [unsubscribe, Change.run_bind, Change.run_get]
  dsimp only
  split
  · next inactive => rw [if_neg (by simpa using inactive)]; rfl
  · next active =>
    rw [if_pos (by simpa using active)]
    simp only [World.cancelled, Change.run_bind, Change.run_get, Change.run_modify]
    split <;> rfl

theorem Desk.Tidy.unsubscribe {sub : SubscriptionId} (h : w.desk.Tidy held)
    (hsub : sub < w.subscriptions.size) : ((unsubscribe sub).run w).2.desk.Tidy held := by
  rw [run_unsubscribe]
  dsimp only
  split
  · exact (h.cancelled hsub).of_eq (w.desk_cancelled sub)
  · exact h

theorem Desk.Tidy.release {b : Option Binding} (h : w.desk.Tidy (b.toList ++ held)) :
    ((release b).run w).2.desk.Tidy held := by
  rcases b with _ | ⟨r | id | sub⟩
  · exact h
  · exact h.of_cons
  · exact h.letGo.of_eq (w.desk_releaseStore id)
  · exact h.of_cons.unsubscribe (h.there (.subscription sub) (mem_grips_cons.2 (.inl rfl)))

theorem Desk.Tidy.bind {b : Binding} (h : w.desk.Tidy (b :: held)) (name : String) :
    ((bind name b).run w).2.desk.Tidy held := by
  have hd : ({ w.note (.bound name) with
      bindings := (name, b) :: w.bindings.filter (·.1 != name) } : World).desk =
    w.desk.bound name b := rfl
  exact Desk.Tidy.release ((h.bound name).of_eq hd)

theorem Desk.Tidy.unbind (h : w.desk.Tidy held) (name : String) :
    ((unbind name).run w).2.desk.Tidy held := by
  have hd : ({ w.note (.bound name) with
      bindings := w.bindings.filter (·.1 != name) } : World).desk = w.desk.unbound name := rfl
  exact Desk.Tidy.release ((h.unbound name).of_eq hd)

theorem mem_grips_of_lookup {name : String} {b : Binding} (h : w.bindings.lookup name = some b) :
    b ∈ w.desk.grips held :=
  List.mem_append_left _ (List.mem_map_of_mem (mem_of_lookup h))

theorem lookup_of_storeNamed? {name : String} {id : StoreId} (h : w.storeNamed? name = some id) :
    w.bindings.lookup name = some (.store id) := by
  rw [World.storeNamed?] at h
  split at h
  · next hb => rw [hb, Option.some.inj h]
  · cases h

theorem lookup_of_subscriptionNamed? {name : String} {sub : SubscriptionId}
    (h : w.subscriptionNamed? name = some sub) :
    w.bindings.lookup name = some (.subscription sub) := by
  rw [World.subscriptionNamed?] at h
  split at h
  · next hb => rw [hb, Option.some.inj h]
  · cases h

theorem Desk.Tidy.storeNamed? {name : String} {id : StoreId} (h : w.desk.Tidy held)
    (hn : w.storeNamed? name = some id) : id < w.desk.stores ∧ w.desk.holders id ≠ 0 :=
  h.alive (mem_grips_of_lookup (lookup_of_storeNamed? hn))

theorem Desk.Tidy.subscriptionNamed? {name : String} {sub : SubscriptionId} (h : w.desk.Tidy held)
    (hn : w.subscriptionNamed? name = some sub) : sub < w.desk.subscriptions :=
  h.there (.subscription sub) (mem_grips_of_lookup (lookup_of_subscriptionNamed? hn))

theorem keeps_bindResult (name : String) (r : Result) :
    Act.Keeps held (liftM (bind name (.result r)) : Act Unit) :=
  ⟨fun _ hw => (hw.cons_result r).bind name⟩

end Variables

section Effects

variable {k : Kernel} (hk : k.Keeps) {held : List Binding}
include hk

theorem Kernel.Keeps.cleanUp (n : NodeId) : Act.Keeps held (cleanUp k n) := by
  rw [Reactivity.cleanUp]
  refine .get_bind fun w => ?_
  cases w.effect? n with
  | none => exact .pure _
  | some e =>
    refine .bind (.markEffect n fun _ => rfl) fun _ => ?_
    split
    · refine .bind (.untracked (.forM (fun c => ?_) _) _) fun _ => .note rfl
      exact .bind (.note rfl) fun _ => .bind (hk.call held _ _) fun _ => .note rfl
    · exact .note rfl

theorem Kernel.Keeps.callWatch (n : NodeId) (rt : RuntimeId) (callback : Closure) (new : Result)
    (old : Option Result) : Act.Keeps held (callWatch k n rt callback new old) :=
  .bind (.note rfl) fun _ => .bind (.untracked (.bind (hk.call held _ _) fun _ => .pure _) rt)
    fun _ => .note rfl

omit hk in
/-- An effect may come to do something else, as long as the store that it watches is there. -/
theorem hands_setJob {w : World} (n : NodeId) {job : Job}
    (there : ∀ id, job.watched? = some id → id < w.desk.stores) :
    Act.Hands held (modify (·.modifyEffect n fun e => { e with job := job }) : Act PUnit)
      (fun _ => []) w := by
  intro hw
  refine (hw.withWatches fun m id hm => ?_).of_eq (w.desk_modifyEffect n _)
  split at hm
  · obtain ⟨e, -, he⟩ := Option.bind_eq_some_iff.1 hm
    exact there id he
  · exact hw.watched m id hm

/-- What an effect does leaves the subscribers in order, if the store that it watches is there. -/
theorem Kernel.Keeps.runJob {w : World} (n : NodeId) (rt : RuntimeId) (job : Job)
    (there : ∀ id, job.watched? = some id → id < w.desk.stores) :
    Act.Hands held (runJob k n rt job) (fun _ => []) w := by
  cases job with
  | body body => exact (Act.Keeps.bind (hk.call held body []) fun _ => .pure _).hands w
  | watch getter callback immediate fresh last =>
    have keep (last : Option Result) : Act.Keeps held (modify (·.modifyEffect n fun e =>
        { e with job := .watch getter callback immediate false last }) : Act PUnit) :=
      ⟨fun w => hands_setJob n (by simp [Job.watched?])⟩
    refine (Act.Keeps.bind (hk.call held getter []) fun next => .bind (.note rfl) fun _ => ?_).hands w
    dsimp only
    split
    · refine .bind (keep none) fun _ => ?_
      split
      · exact .bind (hk.callWatch ..) fun _ => keep _
      · exact keep _
    · split
      · refine .bind (keep _) fun _ => ?_
        split
        · exact hk.callWatch ..
        · exact .pure _
      · split
        · exact .pure _
        · exact .bind (keep _) fun _ => hk.callWatch ..
  | watchStore store primed =>
    have hstore : store < w.desk.stores := there store rfl
    rw [Reactivity.runJob]
    refine .get_bind (.lift_bind (leavesDesk_serialize _) ?_)
    have hd := (leavesDesk_serialize (.object (w.store store).state)).desk w
    generalize ((serialize (.object (w.store store).state)).run w).2 = w₁ at hd
    have hstore₁ : store < w₁.desk.stores := hd ▸ hstore
    split
    · exact hands_setJob n fun id hid => Option.some.inj hid ▸ hstore₁
    · refine .get_bind ?_
      split
      · next alive =>
        exact .holding (fun _ => ⟨hstore₁, bne_iff_ne.1 alive⟩) (hk.notifyStore store).hands
      · exact (Act.Keeps.pure _).hands w₁

theorem Kernel.Keeps.runEffect (rt : RuntimeId) (n : NodeId) :
    Act.Keeps held (runEffect k rt n) := by
  rw [Reactivity.runEffect]
  refine .get_bind fun w => ?_
  split
  · exact .pure _
  · refine .bind (hk.cleanUp n) fun _ => .bind (.lift (leavesDesk_clearSources n)) fun _ => ?_
    refine .inContext ⟨fun w hw => ?_⟩ rt _
    rw [Act.run_get_bind]
    cases he : w.effect? n with
    | none => exact hw
    | some e =>
      dsimp only
      split
      · exact hw
      -- The job is the one that the effect has now, so that its store is there.
      · have there : ∀ id, e.job.watched? = some id → id < w.desk.stores := fun id hid =>
          hw.watched n id ((congrArg (Option.bind · _) he).trans hid)
        refine Act.Hands.modify_bind (w.desk_modifyEffect_of_eq n fun _ => rfl)
          (.lift_bind (.note rfl) (.bind_keeps (.ensuring (hk.runJob n e.runtime e.job there)
            (.modify fun w => w.desk_modifyEffect_of_eq n fun _ => rfl)) fun _ => ?_)) hw
        exact .bind (.note rfl) fun _ => .markEffect n fun _ => rfl

theorem Kernel.Keeps.createEffect {w : World} (rt : RuntimeId) (job : Job)
    (there : ∀ id, job.watched? = some id → id < w.desk.stores) :
    Act.Hands held (createEffect k rt job) (fun _ => []) w := by
  intro hw
  have hd := w.desk_pushEffect { runtime := rt, job := job }
  have hw' : (w.pushNode (.effect { runtime := rt, job := job })).desk.Tidy held := by
    refine (hw.withWatches fun m id hm => ?_).of_eq hd
    split at hm
    · exact there id hm
    · exact hw.watched m id hm
  exact (Act.Keeps.bind (hk.runEffect rt w.nodes.size) fun _ => .pure _).hands _ hw'

theorem Kernel.Keeps.dispose (n : NodeId) : Act.Keeps held (dispose k n) := by
  rw [Reactivity.dispose]
  refine .get_bind fun w => ?_
  cases w.effect? n with
  | none => exact .pure _
  | some e =>
    dsimp only
    split
    · exact .pure _
    · exact .bind (.markEffect n fun _ => rfl) fun _ =>
        .bind (.lift (leavesDesk_clearSources n)) fun _ => .bind (hk.cleanUp n) fun _ => .note rfl

theorem Kernel.Keeps.runBatch (rt : RuntimeId) (batch : List NodeId) :
    Act.Keeps held (runBatch k rt batch) := by
  induction batch with
  | nil => exact .pure _
  | cons n batch ih =>
    rw [Reactivity.runBatch]
    refine .get_bind fun w => ?_
    split
    · exact ih
    · exact .bind (.note rfl) fun _ => .bind (hk.runEffect rt n) fun _ => .bind (.note rfl) fun _ =>
        .bind ih fun _ => .pure _

theorem Kernel.Keeps.runRounds (rt : RuntimeId) (cap left : Nat) (stats : FlushReport) :
    Act.Keeps held (runRounds k rt cap left stats) := by
  induction left generalizing stats with
  | zero =>
    rw [Reactivity.runRounds.eq_def]
    refine .get_bind fun w => ?_
    dsimp only
    split
    · exact .pure _
    · exact .bind (.change fun _ => rfl) fun _ => .bind (.note rfl) fun _ => .pure _
  | succ left ih =>
    rw [Reactivity.runRounds.eq_def]
    refine .get_bind fun w => ?_
    dsimp only
    split
    · exact .pure _
    · exact .bind (.change fun _ => rfl) fun _ => .bind (.note rfl) fun _ =>
        .bind (hk.runBatch rt _) fun _ => ih _

theorem Kernel.Keeps.flush (rt : RuntimeId) : Act.Keeps held (flush k rt) := by
  rw [Reactivity.flush]
  refine .get_bind fun w => ?_
  dsimp only
  split
  · exact .pure _
  · refine .bind (.note rfl) fun _ => .bind (.change fun _ => rfl) fun _ => ?_
    refine .bind (.ensuring (hk.runRounds ..) (.bind (.modify fun _ => rfl) fun _ => .note rfl))
      fun _ => ?_
    exact .bind (hk.observe held) fun _ => .pure _

theorem Kernel.Keeps.runTasks (turns : Nat) : Act.Keeps held (runTasks k turns) := by
  induction turns with
  | zero => exact .pure _
  | succ turns ih =>
    rw [Reactivity.runTasks]
    refine ⟨fun w => .get_bind ?_⟩
    split
    · exact (Act.Keeps.pure _).hands w
    · next rt tasks _ =>
      exact (Act.Keeps.bind (.attempt (.bind (hk.flush rt) fun _ => .pure _)) fun _ => ih).hands
        { w with tasks := tasks }

end Effects

section Stores

variable {k : Kernel} (hk : k.Keeps) {held : List Binding}
include hk

def madeStore : Except StateError StoreId → List Binding
  | .ok id => [.store id]
  | .error _ => []

theorem Kernel.Keeps.adoptStore (state : ObjectId) (w : World) :
    Act.Hands held (adoptStore k state) (fun id => [.store id]) w := by
  intro hw
  let s : Store :=
    { runtime := (w.object state).runtime, state := state, watcher := w.nodes.size }
  have hw' : ({ w with stores := w.stores.push s } : World).desk.Tidy
      (.store w.stores.size :: held) :=
    hw.withStore.of_eq (w.desk_pushStore rfl rfl)
  have hsize : w.stores.size < (w.stores.push s).size := by simp
  have created : Act.Hands (.store w.stores.size :: held)
      (Reactivity.createEffect k s.runtime (.watchStore w.stores.size false)) (fun _ => [])
      { w with stores := w.stores.push s } :=
    hk.createEffect _ _ fun id hid => Option.some.inj hid ▸ hsize
  have hl := created hw'
  change Leaves held _ ((Reactivity.createEffect k s.runtime (.watchStore w.stores.size false) >>=
    fun _ => pure w.stores.size).run.run _)
  rw [Act.run_bind]
  generalize (Reactivity.createEffect k s.runtime _).run.run _ = o at hl
  rcases o with ⟨i | n, w'⟩
  · exact ⟨hl.1, hl.2.of_cons⟩
  · exact hl

theorem Kernel.Keeps.createStore (rt : RuntimeId) (content : Json) (w : World) :
    Act.Hands held (createStore k rt content) madeStore w := by
  rw [Reactivity.createStore.eq_def]
  split
  · refine .lift_bind (leavesDesk_wrap rt _) ?_
    split
    · exact (hk.adoptStore _ _).consume fun _ _ hw => hw
    · exact fun hw => hw
  · exact fun hw => hw

theorem Kernel.Keeps.assignMembers (state : ObjectId) (members : List (String × Json)) :
    Act.Keeps held (assignMembers k state members) :=
  .forM (fun _ => .get_bind fun _ => .bind (.lift (leavesDesk_wrap _ _)) fun _ =>
    hk.objectSet state _ _) members

theorem Kernel.Keeps.setStore (id : StoreId) (next : Json) : Act.Keeps held (setStore k id next) := by
  rw [Reactivity.setStore.eq_def]
  split
  · refine .get_bind fun w => ?_
    refine .bind (.untracked (.lift (ObjectId.leavesDesk_keys _)) _) fun names => ?_
    refine .bind (.forM (fun name => .bind (hk.objectRemove _ name) fun _ => .pure _) _) fun _ => ?_
    exact .bind (hk.assignMembers _ _) fun _ => .pure _
  · exact .pure _

theorem Kernel.Keeps.updateStore (id : StoreId) {patch : Value → Act Json}
    (hpatch : ∀ v, Act.Keeps held (patch v)) : Act.Keeps held (updateStore k id patch) := by
  rw [Reactivity.updateStore]
  refine .get_bind fun w => .bind (.untracked (hpatch _) _) fun j => ?_
  split
  · exact .bind (hk.assignMembers _ _) fun _ => .pure _
  · exact .pure _

theorem Kernel.Keeps.subscribe {w : World} {id : StoreId} (hid : id < w.desk.stores)
    (callback : Closure) :
    Act.Hands held (subscribe k id callback) (fun sub => [.subscription sub]) w := by
  intro hw
  have hd := w.desk_withSubscription id callback
  have active : (w.withSubscription id callback).desk.active w.subscriptions.size = true := by
    rw [hd]
    exact if_pos rfl
  have call : Act.Hands (.subscription w.subscriptions.size :: held)
      (Reactivity.untracked (w.store id).runtime (Reactivity.deliver k id w.subscriptions.size))
      (fun _ => []) (w.withSubscription id callback) :=
    .modify_bind rfl (.ensuring (hk.deliver id active) (.modify fun _ => rfl))
  have hl := call ((hw.withSubscription hid).of_eq hd)
  change Leaves held _ ((Reactivity.untracked (w.store id).runtime
    (Reactivity.deliver k id w.subscriptions.size) >>= fun _ => pure w.subscriptions.size).run.run
      (w.withSubscription id callback))
  rw [Act.run_bind]
  generalize (Reactivity.untracked _ _).run.run _ = o at hl
  rcases o with ⟨i | a, w'⟩
  · exact ⟨hl.1, hl.2.of_cons⟩
  · exact hl

omit hk in
theorem hands_bindStore (name : String) (r : Except StateError StoreId) {w : World}
    (hw : w.desk.Tidy (madeStore r ++ held)) :
    Leaves held (fun _ => []) ((liftM (bindStore name r) : Act Result).run.run w) := by
  cases r with
  | ok id => exact Desk.Tidy.bind hw name
  | error e => exact hw

theorem Kernel.Keeps.runStoreOp (rt : RuntimeId) (op : StoreOp) (name : String)
    (args : List Result) : Act.Keeps held (runStoreOp k rt op name args) := by
  refine ⟨fun w => ?_⟩
  rw [Reactivity.runStoreOp]
  refine .get_bind ?_
  dsimp only
  cases op with
  | create => exact (hk.createStore rt _ w).consume fun r _ hw => hands_bindStore name r hw
  | adopt =>
    dsimp only
    split
    · exact (hk.adoptStore _ w).consume fun id _ hw => hands_bindStore name (.ok id) hw
    · exact fun hw => hw
  | clone source =>
    dsimp only
    split
    · next id hn =>
      intro hw
      obtain ⟨hid, ha⟩ := hw.storeNamed? hn
      exact hands_bindStore name (.ok id) ((hw.hold hid ha).of_eq (w.desk_holdStore id))
    · exact fun hw => hw
  | set =>
    dsimp only
    split
    · next id hn =>
      exact .bind_keeps (.holding (fun hw => hw.storeNamed? hn) (hk.setStore id _).hands)
        fun _ => .pure _
    · exact fun hw => hw
  | notify =>
    dsimp only
    split
    · next id hn =>
      exact .bind_keeps (.holding (fun hw => hw.storeNamed? hn) (hk.requestPass id).hands)
        fun _ => .pure _
    · exact fun hw => hw
  | cancel =>
    dsimp only
    split
    · next sub hn => exact fun hw => hw.unsubscribe (hw.subscriptionNamed? hn)
    · exact fun hw => hw
  | _ =>
    dsimp only
    split <;> exact fun hw => hw

end Stores

end Reactivity
