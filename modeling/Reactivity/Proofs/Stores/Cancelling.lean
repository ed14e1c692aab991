import Reactivity.Proofs.Stores.Serving

namespace Reactivity

section Operations

variable {k : Kernel} (hk : k.Keeps) {held : List Binding}
include hk

theorem Kernel.Keeps.runOp (rt : RuntimeId) (op : Op) (args : List Result) :
    Act.Keeps held (runOp k rt op args) := by
  unfold Reactivity.runOp
  dsimp only
  generalize args.getD 0 .nothing = a
  generalize args.getD 1 .nothing = b
  cases op with
  | runtimeOf =>
    dsimp only
    split
    · exact .get_bind fun _ => .pure _
    · exact .get_bind fun _ => .pure _
    · exact .pure _
  | newRuntime settings hook => exact ⟨fun _ hw => hw⟩
  | flush =>
    refine .bind (hk.flush rt) fun outcome => ?_
    cases outcome <;> exact .pure _
  | runTasks => exact .bind (hk.runTasks _) fun _ => .pure _
  | wrap => exact .bind (.lift (leavesDesk_resultToValue rt a)) fun _ => .pure _
  | wrapObject =>
    refine .get_bind fun w => ?_
    split
    · exact .bind (.lift (leavesDesk_wrap rt _)) fun _ => .pure _
    · exact .pure _
  | newObject => exact .bind (.lift (leavesDesk_wrap rt _)) fun _ => .pure _
  | newArray => exact .bind (.lift (leavesDesk_wrap rt _)) fun _ => .pure _
  | newExternal content => exact ⟨fun _ hw => hw⟩
  | externalContent =>
    dsimp only
    split
    · exact .get_bind fun _ => .pure _
    · exact .pure _
  | isKind kind =>
    dsimp only
    split <;> exact .pure _
  | view kind =>
    dsimp only
    split <;> exact .pure _
  | toJson =>
    dsimp only
    split
    · exact .get_bind fun _ => .pure _
    · exact .pure _
  | serialize =>
    dsimp only
    split
    · exact .bind (.lift (leavesDesk_serialize _)) fun _ => .pure _
    · exact .pure _
  | serializeText =>
    dsimp only
    split
    · exact .bind (.lift (leavesDesk_serialize _)) fun _ => .pure _
    · exact .pure _
  | dispose => exact .bind (.asEffect _ a) fun _ => .bind (hk.dispose _) fun _ => .pure _
  | schedule => exact .bind (.asEffect _ a) fun _ => .bind (hk.schedule _) fun _ => .pure _
  | readMemo => exact .bind (.asMemo _ a) fun _ => hk.readMemo _
  | dirtyMemo => exact .bind (.asMemo _ a) fun _ => .bind (hk.dirtyMemo _) fun _ => .pure _
  | isDisposed | runCount | dependencyCount =>
    exact .bind (.asEffect _ a) fun _ => .get_bind fun _ => .pure _
  | peekMemo | memoState | memoHasValue | computeCount | dependentCount =>
    exact .bind (.asMemo _ a) fun _ => .get_bind fun _ => .pure _
  | flushCap | pendingCount | isFlushing | isTracking | currentReader | describe =>
    exact .get_bind fun _ => .pure _
  | _ => exact .pure _

theorem Kernel.Keeps.runOnObject (id : ObjectId) (op : ContainerOp) (args : List Result) :
    Act.Keeps held (runOnObject k id op args) := by
  unfold Reactivity.runOnObject
  dsimp only
  cases op with
  | set =>
    dsimp only
    split
    · exact .get_bind fun _ => .bind (.lift (leavesDesk_resultToValue _ _)) fun _ =>
        .bind (hk.objectSet id _ _) fun _ => .pure _
    · exact .pure _
  | remove =>
    dsimp only
    split
    · exact .bind (hk.objectRemove id _) fun _ => .pure _
    · exact .pure _
  | contains name => exact .bind (.lift (id.leavesDesk_contains name)) fun _ => .pure _
  | keys => exact .bind (.lift id.leavesDesk_keys) fun _ => .pure _
  | entries => exact .bind (.lift id.leavesDesk_entries) fun _ => .pure _
  | length => exact .bind (.lift id.leavesDesk_length) fun _ => .pure _
  | isEmpty => exact .bind (.lift id.leavesDesk_length) fun _ => .pure _
  | _ => exact .lift (leavesDesk_report _ _ args)

theorem Kernel.Keeps.runOnArray (id : ArrayId) (op : ContainerOp) (args : List Result) :
    Act.Keeps held (runOnArray k id op args) := by
  rw [Reactivity.runOnArray]
  refine .get_bind fun w => ?_
  dsimp only
  have change {α : Type} {f : List Value → List Value × α} : Act.Keeps held
      (id.changeBy k fun before => pure (f before)) := hk.changeBy id fun _ => .pure _
  have value (r : Result) (rt : RuntimeId) : Act.Keeps held (liftM (r.toValue rt) : Act Value) :=
    .lift (leavesDesk_resultToValue rt r)
  cases op with
  | set => exact .bind (value _ _) fun _ => .bind (hk.arraySet id _ _) fun _ => .pure _
  | remove => exact .bind change fun _ => .pure _
  | length => exact .bind (.lift id.leavesDesk_length) fun _ => .pure _
  | isEmpty => exact .bind (.lift id.leavesDesk_length) fun _ => .pure _
  | values => exact .bind (.lift id.leavesDesk_values) fun _ => .pure _
  | push => exact .bind (value _ _) fun _ => .bind change fun _ => .pure _
  | pop => exact .bind change fun _ => .pure _
  | insert => exact .bind (value _ _) fun _ => .bind change fun _ => .pure _
  | truncate => exact .bind change fun _ => .pure _
  | clear => exact .bind change fun _ => .pure _
  | swap => exact .bind change fun _ => .pure _
  | reverse => exact .bind change fun _ => .pure _
  | extend => exact .bind (.mapM (fun r => value r _) args) fun _ => .bind change fun _ => .pure _
  | _ => exact .lift (leavesDesk_report _ _ args)

theorem Kernel.Keeps.runContainerOp (op : ContainerOp) (target : Result) (args : List Result) :
    Act.Keeps held (runContainerOp k op target args) := by
  rw [Reactivity.runContainerOp.eq_def]
  split
  · exact hk.runOnObject ..
  · exact hk.runOnArray ..
  · exact .pure _

theorem Kernel.Keeps.sort (id : ArrayId) (body : Closure) :
    Act.Keeps held (id.sort k (sortsBefore k body)) := by
  refine hk.changeBy id fun before => .bind (keeps_insertionSort (fun x y => ?_) before) fun _ =>
    .pure _
  rw [sortsBefore]
  refine .bind (hk.call held _ _) fun r => ?_
  split <;> exact .pure _

end Operations

theorem keeps_replicate {held : List Binding} {act : Act Unit} (h : Act.Keeps held act) (n : Nat) :
    Act.Keeps held (replicateAct n act) := by
  induction n with
  | zero => exact .pure _
  | succ n ih => exact .bind h fun _ => ih

mutual

theorem Kernel.Keeps.eval {k : Kernel} (hk : k.Keeps) {held : List Binding} (env : Env) (e : Expr) :
    Act.Keeps held (eval k env e) := by
  rw [Reactivity.eval.eq_def]
  refine .bind (hk.observe held) fun _ => ?_
  cases e with
  | literal j => exact .pure _
  | number x => exact .pure _
  | nothing => exact .pure _
  | var name => exact .get_bind fun _ => .pure _
  | argument i => exact .pure _
  | assign name e =>
    exact .bind (hk.eval env e) fun r => .bind (keeps_bindResult name r) fun _ => .pure _
  | forget name =>
    exact .bind ⟨fun _ hw => hw.unbind name⟩ fun _ => .pure _
  | block es => exact .bind (hk.evalList env es) fun _ => .pure _
  | cond c t e =>
    refine .bind (hk.eval env c) fun r => ?_
    split
    · exact hk.eval env t
    · exact hk.eval env e
  | replicate n es =>
    exact .bind (hk.eval env n) fun _ => .bind (keeps_replicate
      (.bind (hk.evalList env es) fun _ => .pure _) _) fun _ => .pure _
  | log es => exact .bind (hk.evalLog env es) fun _ => .pure _
  | list es => exact .bind (hk.evalList env es) fun _ => .pure _
  | record names es => exact .bind (hk.evalPlain env es) fun _ => .pure _
  | throw message => exact .raise message
  | attempt es => exact .attempt (.bind (hk.evalList env es) fun _ => .pure _)
  | within runtime es =>
    refine .bind (hk.eval env runtime) fun r => ?_
    split
    · exact .bind (hk.evalList _ es) fun _ => .pure _
    · exact .pure _
  | untracked es => exact .untracked (.bind (hk.evalList env es) fun _ => .pure _) _
  | apply op es => exact .bind (hk.evalList env es) fun _ => hk.runOp _ _ _
  | path tracked target keys =>
    exact .bind (hk.eval env target) fun _ => .bind (hk.evalList env keys) fun _ =>
      .foldlM (fun _ _ => .lift (leavesDesk_readStep ..)) _ _
  | container op target es =>
    refine .bind (hk.eval env target) fun _ => ?_
    split
    · exact .bind (hk.evalList env es) fun _ => hk.runContainerOp ..
    · exact .pure _
  | sort target body =>
    refine .bind (hk.eval env target) fun _ => ?_
    split
    · exact .bind (hk.sort ..) fun _ => .pure _
    · exact .pure _
  | retain target body =>
    refine .bind (hk.eval env target) fun _ => ?_
    split
    · refine .bind (hk.changeBy _ fun before => .bind (.filterM (fun v => ?_) _) fun _ => .pure _)
        fun _ => .pure _
      exact .bind (hk.call held _ _) fun _ => .pure _
    · exact .pure _
  | effect body =>
    exact .bind ⟨fun _ => hk.createEffect _ _ (by simp [Job.watched?])⟩ fun _ => .pure _
  | watch immediate getter callback =>
    exact .bind ⟨fun _ => hk.createEffect _ _ (by simp [Job.watched?])⟩ fun _ => .pure _
  | memo body => exact .bind (.lift (leavesDesk_createMemo ..)) fun _ => .pure _
  | onCleanup body => exact .bind (.lift (leavesDesk_registerCleanup ..)) fun _ => .pure _
  | store op name es => exact .bind (hk.evalList env es) fun _ => hk.runStoreOp ..
  | update name body =>
    refine ⟨fun w => .get_bind ?_⟩
    split
    · exact fun hw => hw
    · next id hn =>
      refine .bind_keeps (.holding (fun hw => hw.storeNamed? hn)
        (hk.updateStore id fun v => ?_).hands) fun _ => .pure _
      exact .bind (hk.call _ _ _) fun _ => .get_bind fun _ => .pure _
  | subscribe subscription name body =>
    refine ⟨fun w => .get_bind ?_⟩
    split
    · exact fun hw => hw
    · next id hn =>
      have hands : Act.Hands held (holding id (Reactivity.subscribe k id ⟨body, env.runtime⟩))
          (fun sub => [.subscription sub]) w :=
        .holding (fun hw => hw.storeNamed? hn) fun w' hw' =>
          hk.subscribe (hw'.alive (List.mem_append_right _ List.mem_cons_self)).1 _ hw'
      exact hands.consume fun sub _ hw => hw.bind subscription

theorem Kernel.Keeps.evalList {k : Kernel} (hk : k.Keeps) {held : List Binding} (env : Env)
    (es : List Expr) : Act.Keeps held (evalList k env es) := by
  cases es with
  | nil => exact .pure _
  | cons e es =>
    rw [Reactivity.evalList]
    exact .bind (hk.eval env e) fun _ => .bind (hk.evalList env es) fun _ => .pure _

theorem Kernel.Keeps.evalPlain {k : Kernel} (hk : k.Keeps) {held : List Binding} (env : Env)
    (es : List Expr) : Act.Keeps held (evalPlain k env es) := by
  cases es with
  | nil => exact .pure _
  | cons e es =>
    rw [Reactivity.evalPlain]
    exact .bind (hk.eval env e) fun _ => .get_bind fun _ => .bind (hk.evalPlain env es) fun _ =>
      .pure _

theorem Kernel.Keeps.evalLog {k : Kernel} (hk : k.Keeps) {held : List Binding} (env : Env)
    (es : List Expr) : Act.Keeps held (evalLog k env es) := by
  cases es with
  | nil => exact .pure _
  | cons e es =>
    rw [Reactivity.evalLog]
    exact .bind (hk.eval env e) fun _ => .bind (.lift (.modify fun _ => rfl)) fun _ =>
      hk.evalLog env es

end

section Kernels

variable {observe : Act Unit} (hobserve : ∀ held, Act.Keeps held observe)
include hobserve

theorem Kernel.Keeps.exhausted : (Kernel.exhausted observe).Keeps where
  observe := hobserve
  call _ _ _ := .bind (.note rfl) fun _ => .throw (by simp)
  flushNow _ _ := .bind (.note rfl) fun _ => .throw (by simp)
  passOn _ _ _ _ := .bind (.note rfl) fun _ => .throw (by simp)

theorem Kernel.Keeps.next {inner : Unit → Kernel} (h : (inner ()).Keeps) :
    (Kernel.next observe inner).Keeps where
  observe := hobserve
  call _ _ _ := h.eval _ _
  flushNow _ rt := .bind (h.flush rt) fun _ => .pure _
  passOn _ rt x key := h.trigger rt x key

theorem keeps_observedKernel (depth : Nat) : (observedKernel observe depth).Keeps := by
  induction depth with
  | zero => exact .exhausted hobserve
  | succ depth ih => exact .next hobserve ih

end Kernels

theorem World.start_tidy (settings : Settings) (hook : Hook) :
    (World.start settings hook).desk.Tidy [] where
  there _ hb := absurd hb List.not_mem_nil
  holders _ hid := absurd hid (Nat.not_lt_zero _)
  made := rfl
  owner _ hs := absurd hs (Nat.not_lt_zero _)
  inactive sub := ⟨fun hm => absurd hm List.not_mem_nil, fun h => absurd h.1 (Nat.not_lt_zero _)⟩
  listed _ hid := absurd hid (Nat.not_lt_zero _)
  watched n id hn := by simp [World.desk, World.start, World.effect?] at hn
  final := .nil

theorem Kernel.Keeps.runStep {k : Kernel} (hk : k.Keeps) {w : World} (hw : w.desk.Tidy [])
    (e : Expr) : ((runStep k e).run w).2.desk.Tidy [] ∧
      ((runStep k e).run w).1.outcome ≠ .error .stopped := by
  have h : Act.Hands [] (Reactivity.eval k ⟨0, []⟩ e) (fun _ => []) { w with log := [] } :=
    (hk.eval ⟨0, []⟩ e).hands _
  exact ⟨h.tidy hw, h.error hw⟩

theorem Kernel.Keeps.runSteps {k : Kernel} (hk : k.Keeps) {w : World} (hw : w.desk.Tidy [])
    (es : List Expr) : ((runSteps k es).run w).2.desk.Tidy [] ∧
      ∀ report ∈ ((runSteps k es).run w).1, report.outcome ≠ .error .stopped := by
  induction es generalizing w with
  | nil => exact ⟨hw, fun _ hr => absurd hr List.not_mem_nil⟩
  | cons e es ih =>
    rw [Reactivity.runSteps, List.mapM_cons]
    obtain ⟨hw₁, hreport⟩ := hk.runStep hw e
    obtain ⟨hw₂, hreports⟩ := ih hw₁
    refine ⟨hw₂, fun report hr => ?_⟩
    rcases List.mem_cons.1 hr with rfl | hr
    · exact hreport
    · exact hreports report hr

def Event.unsubscribed? : Event → Option SubscriptionId
  | .unsubscribed sub => some sub
  | _ => none

namespace World

/-- The subscriptions to a store that were made and have not been cancelled, in the order in which
they were made. -/
def registered (w : World) (id : StoreId) : List SubscriptionId :=
  (w.history.reverse.filterMap Event.subscribed?).filter fun sub =>
    (w.subscription sub).store = id ∧ sub ∉ w.history.filterMap Event.unsubscribed?

/-- Cancelling is final, and subscribers are counted. -/
structure SubscribersListed (w : World) : Prop where
  /-- No call of a subscriber has started after its subscription was cancelled. -/
  final : w.history.Pairwise fun e earlier => ∀ sub state, e = .delivered sub state →
    earlier ≠ .unsubscribed sub
  /-- When `unsubscribe` has returned, the subscription is cancelled, now or before. -/
  cancel : ∀ sub < w.subscriptions.size, .unsubscribed sub ∈ ((unsubscribe sub).run w).2.history
  /-- So it is when its variable was removed or bound to something else. -/
  drop : ∀ name sub, w.subscriptionNamed? name = some sub →
    .unsubscribed sub ∈ ((unbind name).run w).2.history ∧
      ∀ b, .unsubscribed sub ∈ ((bind name b).run w).2.history
  /-- A store lists the subscriptions that were made and not cancelled. -/
  listed : ∀ id < w.stores.size, (w.store id).isAlive → (w.store id).subscribers = w.registered id
  /-- Whoever can name a store, or ask for the number of its subscribers, keeps it alive. -/
  alive : ∀ name id, w.storeNamed? name = some id → id < w.stores.size ∧ (w.store id).isAlive
  /-- The number of subscribers is the number of these subscriptions. -/
  counted : ∀ k rt name id args, w.storeNamed? name = some id →
    (runStoreOp k rt .subscriberCount name args).run.run w =
      (.ok (.ofNat (w.registered id).length), w)

variable {w : World} {held : List Binding}

theorem filterMap_past {α : Type} {f : Event → Option α}
    (hf : ∀ e, e.isAboutSubscription = false → f e = none) (es : List Event) :
    (es.filter Event.isAboutSubscription).filterMap f = es.filterMap f := by
  rw [List.filterMap_filter]
  congr 1
  funext e
  cases he : e.isAboutSubscription with
  | true => rfl
  | false => exact (hf e he).symm

theorem unsubscribed_mem_past {sub : SubscriptionId} :
    .unsubscribed sub ∈ w.desk.past ↔ .unsubscribed sub ∈ w.history :=
  List.mem_filter.trans (and_iff_left rfl)

/-- Of a subscription that is not active it was written down that it was cancelled. -/
theorem unsubscribed_of_inactive (h : w.desk.Tidy held) {sub : SubscriptionId}
    (hs : sub < w.subscriptions.size) (inactive : (w.subscription sub).active = false) :
    .unsubscribed sub ∈ w.history :=
  unsubscribed_mem_past.1 ((h.inactive sub).2 ⟨hs, inactive⟩)

theorem unsubscribed_of_unsubscribe {sub : SubscriptionId}
    (h : (w.subscription sub).active = false → .unsubscribed sub ∈ w.history) :
    .unsubscribed sub ∈ ((unsubscribe sub).run w).2.history := by
  rw [run_unsubscribe]
  dsimp only
  split
  · exact List.mem_cons_self
  · next inactive => exact h (by simpa using inactive)

theorem registered_eq (h : w.desk.Tidy held) (id : StoreId) :
    w.registered id = (List.range w.subscriptions.size).filter fun sub =>
      (w.subscription sub).store = id ∧ (w.subscription sub).active := by
  have made : w.history.reverse.filterMap Event.subscribed? = List.range w.subscriptions.size := by
    rw [← filterMap_past (by rintro ⟨⟩ <;> simp [Event.isAboutSubscription, Event.subscribed?]),
      List.filter_reverse]
    exact h.made
  rw [registered, made]
  refine List.filter_congr fun sub hs => decide_eq_decide.2 (and_congr_right fun _ => ?_)
  have hmem : sub ∈ w.history.filterMap Event.unsubscribed? ↔ .unsubscribed sub ∈ w.history := by
    refine ⟨fun hm => ?_, fun hm => List.mem_filterMap.2 ⟨_, hm, rfl⟩⟩
    obtain ⟨e, he, hsub⟩ := List.mem_filterMap.1 hm
    cases e <;> cases hsub
    exact he
  rw [hmem, ← unsubscribed_mem_past, h.inactive]
  change ¬(sub < w.subscriptions.size ∧ (w.subscription sub).active = false) ↔ _
  simp [List.mem_range.1 hs]

theorem SubscribersListed.of_tidy (h : w.desk.Tidy held) : w.SubscribersListed where
  final := by
    refine (List.pairwise_filter.1 h.final).imp fun hp sub state he hu => ?_
    subst he hu
    exact hp rfl rfl sub state rfl rfl
  cancel sub hs := unsubscribed_of_unsubscribe (unsubscribed_of_inactive h hs)
  drop name sub hn := by
    have hl := lookup_of_subscriptionNamed? hn
    have hs := h.subscriptionNamed? hn
    have release (bindings : List (String × Binding)) : .unsubscribed sub ∈
        ((release (w.bindings.lookup name)).run
          { w.note (.bound name) with bindings := bindings }).2.history := by
      rw [hl]
      exact unsubscribed_of_unsubscribe fun inactive =>
        List.mem_cons_of_mem _ (unsubscribed_of_inactive h hs inactive)
    exact ⟨release _, fun b => release _⟩
  listed id hid alive := by
    rw [registered_eq h]
    exact h.listed id hid (bne_iff_ne.1 alive)
  alive name id hn := (h.storeNamed? hn).imp_right bne_iff_ne.2
  counted k rt name id args hn := by
    obtain ⟨hid, alive⟩ := h.storeNamed? hn
    have hlist : (w.store id).subscribers = w.registered id := by
      rw [registered_eq h]
      exact h.listed id hid alive
    unfold runStoreOp
    rw [Act.run_get_bind]
    simp only [hn, hlist]
    rfl

end World

/-- Whatever a program does, and wherever it is looked at, cancelling is final, and subscribers are
counted. -/
theorem subscribersListed_throughout (settings : Settings) (hook : Hook) (depth : Nat)
    (es : List Expr) :
    Throughout settings hook depth es World.SubscribersListed ∧
      (World.after settings hook depth es).SubscribersListed := by
  have hstart := World.start_tidy settings hook
  have hobserve (held : List Binding) : Act.Keeps held (require World.SubscribersListed) :=
    ⟨fun w hw => by
      rw [run_require (World.SubscribersListed.of_tidy hw)]
      exact hw⟩
  have hk : (kernel depth).Keeps := keeps_observedKernel (fun _ => .pure _) depth
  exact ⟨((keeps_observedKernel hobserve depth).runSteps hstart es).2,
    .of_tidy (hk.runSteps hstart es).1⟩

-- A subscriber that cancels another one in the middle of a pass.
set_option maxRecDepth 8000 in
example : (World.after .standard .manual 3
    [.store .create "store" [.literal (.object [])],
      .subscribe "first" "store" (.store .cancel "second" []),
      .subscribe "second" "store" .nothing,
      .store .notify "store" []]).registered 0 = [0] := by cbv

end Reactivity
