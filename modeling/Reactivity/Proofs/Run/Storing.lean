import Reactivity.Proofs.Run.Operating

namespace Reactivity

theorem run_adoptStore (k : Kernel) (state : ObjectId) (w : World) :
    (adoptStore k state).run.run w =
      (do
        note (.cleanedUp w.nodes.size)
        restart k (w.object state).runtime w.nodes.size
        return w.stores.size : Act StoreId).run.run (w.withStore state) := by
  have hrun : (adoptStore k state).run.run w =
      (createEffect k (w.object state).runtime (.watchStore w.stores.size false) >>=
        fun _ => pure w.stores.size : Act StoreId).run.run
        { w with
          stores := w.stores.push
            { runtime := (w.object state).runtime, state := state, watcher := w.nodes.size } } := rfl
  have hw : ({ w with
      stores := w.stores.push
        { runtime := (w.object state).runtime, state := state, watcher := w.nodes.size } } : World).pushNode
      (.effect { runtime := (w.object state).runtime, job := .watchStore w.stores.size false }) =
    w.withStore state := rfl
  rw [hrun, Act.run_bind, run_createEffect, hw, Act.run_lift_bind, Act.run_lift_bind, Act.run_bind,
    Act.run_bind]
  generalize (restart k (w.object state).runtime w.nodes.size).run.run _ = o
  rcases o with ⟨i | a, w'⟩ <;> rfl

theorem World.subscription_withSubscription (w : World) (id : StoreId) (callback : Closure)
    (sub : SubscriptionId) : (w.withSubscription id callback).subscription sub =
      if sub = w.subscriptions.size then
        { store := id, number := (w.store id).subscribed, callback := callback }
      else w.subscription sub := by
  have hpush : (w.withSubscription id callback).subscription sub = ((w.subscriptions.push
      { store := id, number := (w.store id).subscribed, callback := callback })[sub]?).getD default :=
    rfl
  rw [hpush, Array.getElem?_push]
  split <;> rfl

section Stores

variable {R : Config → Prop} {k : Kernel} (hk : k.Sound R) {w : World} {g : List Frame}
include hk

theorem Kernel.Sound.runs_adoptStore (ready : Ready w g) {state : ObjectId}
    (hstate : state < w.objects.size) :
    Runs R g g g (adoptStore k state) (fun id w' => id < w'.stores.size) w := by
  refine .intro fun hr => ?_
  have hrt := ((hk.closed.sane hr).world.objects state hstate).1
  have hnew := Step.newStore ready.code ready.free hstate
  have hsize : w.stores.size < (w.withStore state).stores.size := by
    simp [World.withStore, World.pushNode]
  refine .step hk.closed _ hnew (run_adoptStore k state w) ?_
  refine (hk.runs_created (g := g)
    (e := { runtime := (w.object state).runtime, job := .watchStore w.stores.size false }) ?_ rfl rfl
    (hnew.extends.runtimes _ hrt).1 fun _ => rfl).bind fun _ w₁ _ he₁ _ =>
      .pure (he₁.stores _ hsize).1
  rw [World.withStore, World.effect?_pushNode, if_pos rfl]

theorem Kernel.Sound.runs_createStore (ready : Ready w g) {rt : RuntimeId}
    (hrt : rt < w.runtimes.size) (content : Json) :
    Runs R g g g (createStore k rt content)
      (fun r w' => ∀ id, r = .ok id → id < w'.stores.size) w := by
  unfold createStore
  split
  · refine (Runs.lift (does_wrap hk.closed ready.code hrt)).bind fun v w₁ _ he₁ h => ?_
    split
    · exact (hk.runs_adoptStore (ready.mono he₁) h.1).bind fun id _ _ _ hid =>
        .pure fun id' hid' => Except.ok.inj hid' ▸ hid
    · exact .pure nofun
  · exact .pure nofun

theorem Kernel.Sound.runs_assignMembers (ready : Ready w g) {state : ObjectId}
    (hstate : state < w.objects.size) (members : List (String × Json)) :
    Runs R g g g (assignMembers k state members) (fun _ _ => True) w := by
  refine Runs.forM (fun w' => w.Extends w') (fun h he => h.trans he) (.refl w)
    fun member _ w₁ hr₁ he₁ => .get_bind ?_
  have hstate₁ := (he₁.objects state hstate).1
  have hrt₁ := ((hk.closed.sane hr₁).world.objects state hstate₁).1
  refine (Runs.lift (does_wrap hk.closed ready.code hrt₁)).bind fun v w₂ _ he₂ hv => ?_
  have ready₂ := ready.mono (he₁.trans he₂)
  exact hk.runs_setObject ready₂.code ready₂.free (he₂.objects state hstate₁).1 hv.1

theorem Kernel.Sound.runs_setStore (ready : Ready w g) {id : StoreId} (hid : id < w.stores.size)
    (next : Json) : Runs R g g g (setStore k id next) (fun _ _ => True) w := by
  unfold setStore
  split
  · next members =>
    refine .intro fun hr => .get_bind ?_
    obtain ⟨hstate, -, hrt, -, -⟩ := (hk.closed.sane hr).world.stores id hid
    refine (hk.runs_untracked (Q := fun _ _ => True) (fun _ _ => trivial) ready hrt
      fun {w₁} he₁ ready₁ => ?_).bind fun names w₂ _ he₂ _ => ?_
    · exact (Runs.lift (does_keys hk.closed ready₁.code (he₁.objects _ hstate).1)).mono
        fun _ _ _ _ _ => trivial
    have ready₂ := ready.mono he₂
    refine (Runs.forM (fun w' => w₂.Extends w') (fun h he => h.trans he) (.refl w₂)
      fun name _ w₃ _ he₃ => ?_).bind fun _ w₄ _ he₄ _ => ?_
    · have ready₃ := ready₂.mono he₃
      exact (hk.runs_removeObject ready₃.code ready₃.free
        ((he₂.trans he₃).objects _ hstate).1).bind fun _ _ _ _ _ => .pure trivial
    · exact (hk.runs_assignMembers (ready₂.mono he₄) ((he₂.trans he₄).objects _ hstate).1
        members).bind fun _ _ _ _ _ => .pure trivial
  · exact .pure trivial

theorem Kernel.Sound.runs_updateStore (ready : Ready w g) {id : StoreId} (hid : id < w.stores.size)
    {patch : Value → Act Json}
    (hpatch : ∀ v w' rt, w.Extends w' → Ready w' (.masked rt :: g) → v.Valid w' →
      Runs R (.masked rt :: g) (.masked rt :: g) (.masked rt :: g) (patch v) (fun _ _ => True) w') :
    Runs R g g g (updateStore k id patch) (fun _ _ => True) w := by
  refine .intro fun hr => .get_bind ?_
  obtain ⟨hstate, -, hrt, -, -⟩ := (hk.closed.sane hr).world.stores id hid
  refine (hk.runs_untracked (Q := fun _ _ => True) (fun _ _ => trivial) ready hrt
    fun {w₁} he₁ ready₁ => hpatch (.object _) w₁ _ he₁ ready₁ (he₁.objects _ hstate).1).bind
      fun j w₂ _ he₂ _ => ?_
  split
  · exact (hk.runs_assignMembers (ready.mono he₂) (he₂.objects _ hstate).1 _).bind
      fun _ _ _ _ _ => .pure trivial
  · exact .pure trivial

theorem Kernel.Sound.runs_subscribe (ready : Ready w g) {id : StoreId} (hid : id < w.stores.size)
    {callback : Closure} (hc : callback.Valid w) :
    Runs R g g g (subscribe k id callback) (fun sub w' => sub < w'.subscriptions.size) w := by
  have hsubscribe := Step.subscribe ready.code ready.free hid hc
  have he := hsubscribe.extends
  have hsub : w.subscriptions.size < (w.withSubscription id callback).subscriptions.size :=
    Nat.lt_of_lt_of_eq (Nat.lt_succ_self _) (Array.size_push _).symm
  have idle : ((w.withSubscription id callback).subscription w.subscriptions.size).running = false := by
    rw [w.subscription_withSubscription, if_pos rfl]
  refine .step hk.closed (do
    (deliver k id w.subscriptions.size).ensuring (modify (·.popContext (w.store id).runtime))
    return w.subscriptions.size) hsubscribe rfl ?_
  have hdeliver := hk.runs_deliver
    (w := (w.withSubscription id callback).pushContext (w.store id).runtime none)
    (.greet (g := .masked (w.store id).runtime :: g) hsub idle) idle (he.stores id hid).1 hsub
  have hgreeting : Runs R _ g g ((deliver k id w.subscriptions.size).ensuring
      (modify (·.popContext (w.store id).runtime))) (fun _ _ => True) _ :=
    hdeliver.ensuring (fun _ _ _ _ _ => .of_step hk.closed .unmask fun _ => trivial)
      fun _ _ _ => .of_step hk.closed .unmask fun _ => trivial
  refine hgreeting.bind fun _ w₁ _ he₁ _ => ?_
  exact .pure (he₁.subscriptions _ hsub).1

theorem runs_bindStore {name : String} {outcome : Except StateError StoreId}
    (hid : ∀ id, outcome = .ok id → id < w.stores.size) :
    Runs R g g g (liftM (bindStore name outcome) : Act Result) (fun r w' => r.Valid w') w := by
  refine .lift ?_
  cases outcome with
  | error e => exact .pure trivial
  | ok id =>
    exact (does_bind hk.closed (b := .store id) (hid id rfl)).bind fun _ _ _ _ _ => .pure trivial

omit hk in
theorem runs_onStore (hs : w.Sane) (name : String) {f : StoreId → Act Result}
    (hf : ∀ id, id < w.stores.size → Runs R g g g (f id) (fun r w' => r.Valid w') w) :
    Runs R g g g
      (match w.storeNamed? name with
        | some id => f id
        | none => return .nothing)
      (fun r w' => r.Valid w') w := by
  cases hn : w.storeNamed? name with
  | none => exact .pure trivial
  | some id => exact hf id (hs.storeNamed?_lt hn)

omit hk in
theorem runs_onSubscription (hs : w.Sane) (name : String) {f : SubscriptionId → Act Result}
    (hf : ∀ id, id < w.subscriptions.size → Runs R g g g (f id) (fun r w' => r.Valid w') w) :
    Runs R g g g
      (match w.subscriptionNamed? name with
        | some id => f id
        | none => return .nothing)
      (fun r w' => r.Valid w') w := by
  cases hn : w.subscriptionNamed? name with
  | none => exact .pure trivial
  | some id => exact hf id (hs.subscriptionNamed?_lt hn)

theorem Kernel.Sound.runs_storeOp (ready : Ready w g) {rt : RuntimeId} (hrt : rt < w.runtimes.size)
    (op : StoreOp) (name : String) {args : List Result} (hargs : ∀ r ∈ args, r.Valid w) :
    Runs R g g g (runStoreOp k rt op name args) (fun r w' => r.Valid w') w := by
  have ha := Result.getD_valid hargs 0
  unfold runStoreOp
  dsimp only
  generalize args.getD 0 .nothing = a at ha
  refine .intro fun hr => .get_bind ?_
  have hs := (hk.closed.sane hr).world
  have onStore {f : StoreId → Act Result}
      (hf : ∀ id, id < w.stores.size → Runs R g g g (f id) (fun r w' => r.Valid w') w) :=
    runs_onStore hs name hf
  have onSubscription {f : SubscriptionId → Act Result}
      (hf : ∀ id, id < w.subscriptions.size → Runs R g g g (f id) (fun r w' => r.Valid w') w) :=
    runs_onSubscription hs name hf
  cases op with
  | create =>
    exact (hk.runs_createStore ready hrt _).bind fun _ _ _ _ h => runs_bindStore hk h
  | adopt =>
    dsimp only
    split
    · exact (hk.runs_adoptStore ready ha).bind fun id _ _ _ hid =>
        runs_bindStore hk fun id' h => Except.ok.inj h ▸ hid
    · exact .pure trivial
  | clone source =>
    dsimp only
    split
    · next id hn =>
      refine (Runs.lift (does_holdStore hk.closed)).bind fun _ w₁ _ he₁ _ => ?_
      exact runs_bindStore hk fun id' h =>
        Except.ok.inj h ▸ (he₁.stores id (hs.storeNamed?_lt hn)).1
    · exact .pure trivial
  | state => exact onStore fun id hid => .pure (hs.stores id hid).1
  | runtime =>
    refine onStore fun id hid => .pure ?_
    obtain ⟨-, -, hrt, -⟩ := hs.stores id hid
    exact hrt
  | set =>
    refine onStore fun id hid => (hk.runs_holding (Q := fun _ _ => True) (fun _ _ => trivial) hid
      fun he₁ => hk.runs_setStore (ready.mono he₁) (he₁.stores id hid).1 _).bind
        fun r w₁ _ _ _ => .pure (Result.ofUnit_valid w₁ r)
  | notify =>
    exact onStore fun id hid => (hk.runs_holding (Q := fun _ _ => True) (fun _ _ => trivial) hid
      fun he₁ => hk.runs_requestPass ready.code (ready.mono he₁).free (he₁.stores id hid).1).bind
        fun _ _ _ _ _ => .pure trivial
  | snapshot => exact onStore fun id hid => .pure (Result.ofJson_valid w _)
  | subscriberCount => exact onStore fun id hid => .pure (Result.ofNat_valid w _)
  | cancel =>
    exact onSubscription fun id _ => (Runs.lift (does_unsubscribe hk.closed)).bind
      fun _ _ _ _ _ => .pure trivial
  | isActive => exact onSubscription fun id _ => .pure trivial
  | describe =>
    dsimp only
    split <;> exact .pure trivial

end Stores

end Reactivity
