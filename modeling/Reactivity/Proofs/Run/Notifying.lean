import Reactivity.Proofs.Run.Computing

namespace Reactivity

namespace World

variable (w : World) (id : StoreId) (f : Store → Store)

theorem modifyReaders_modifyStore (h : Handle) (r : Readers → Readers) :
    (w.modifyStore id f).modifyReaders h r = (w.modifyReaders h r).modifyStore id f := by
  cases h <;> rfl

theorem clearedOf_modifyStore (n : NodeId) :
    (w.modifyStore id f).clearedOf n = (w.clearedOf n).modifyStore id f := by
  have fold (ps : List (Handle × Key)) (w : World) :
      ps.foldl (fun w p => w.modifyReaders p.1 (·.remove p.2 n)) (w.modifyStore id f) =
        (ps.foldl (fun w p => w.modifyReaders p.1 (·.remove p.2 n)) w).modifyStore id f := by
    induction ps generalizing w with
    | nil => rfl
    | cons p ps ih => rw [List.foldl_cons, List.foldl_cons, modifyReaders_modifyStore, ih]
  exact fold (w.sources n) ((w.note (.cleared n)).modifySources n fun _ => [])

theorem disposing_modifyStore (n : NodeId) :
    (w.modifyStore id f).disposing n = (w.disposing n).modifyStore id f :=
  clearedOf_modifyStore (w.modifyEffect n fun e => { e with disposed := true }) id f n

end World

section Holding

variable {α : Type} {R : Config → Prop} {w : World} {g g' e : List Frame} {id : StoreId}

theorem does_holdStore (hR : Closed R) {u : Bool} :
    Does R g u g (holdStore id) (fun _ _ => True) w :=
  .of_step hR (.aside (.hold id)) fun _ => trivial

theorem run_releaseStore_last (last : (w.store id).holders - 1 = 0) (hid : id < w.stores.size)
    (live : w.isDisposed (w.store id).watcher = false) :
    (releaseStore id).run w = ((), ((w.disposing (w.store id).watcher).note
      (.disposed (w.store id).watcher)).modifyStore id fun s =>
        { s with holders := s.holders - 1 }) := by
  have hstore : (w.modifyStore id fun s => { s with holders := s.holders - 1 }).store id =
      { w.store id with holders := (w.store id).holders - 1 } := by
    rw [World.store_modifyStore, if_pos ⟨rfl, hid⟩]
  have hlive : (w.modifyStore id fun s => { s with holders := s.holders - 1 }).isDisposed
      (w.store id).watcher = false := live
  have hrun : (releaseStore id).run w = (if (!((w.modifyStore id fun s =>
      { s with holders := s.holders - 1 }).store id).isAlive) = true
      then retire ((w.modifyStore id fun s => { s with holders := s.holders - 1 }).store id).watcher
      else pure () : Change Unit).run
        (w.modifyStore id fun s => { s with holders := s.holders - 1 }) := rfl
  rw [hrun, hstore, if_pos (by simp [Store.isAlive, last])]
  have hretire : (retire (w.store id).watcher).run
      (w.modifyStore id fun s => { s with holders := s.holders - 1 }) =
        ((), ((w.modifyStore id fun s => { s with holders := s.holders - 1 }).disposing
          (w.store id).watcher).note (.disposed (w.store id).watcher)) := by
    simp only [retire, Change.run_bind, Change.run_get, hlive]
    rfl
  rw [hretire, World.disposing_modifyStore]
  rfl

/-- A store is let go of by others than the last of its holders, or after its watcher has gone. -/
theorem run_releaseStore (last : (w.store id).holders - 1 = 0 → w.isDisposed (w.store id).watcher)
    (hid : id < w.stores.size) :
    (releaseStore id).run w = ((), w.modifyStore id fun s => { s with holders := s.holders - 1 }) := by
  have hstore : (w.modifyStore id fun s => { s with holders := s.holders - 1 }).store id =
      { w.store id with holders := (w.store id).holders - 1 } := by
    rw [World.store_modifyStore, if_pos ⟨rfl, hid⟩]
  have hrun : (releaseStore id).run w = (if (!((w.modifyStore id fun s =>
      { s with holders := s.holders - 1 }).store id).isAlive) = true
      then retire ((w.modifyStore id fun s => { s with holders := s.holders - 1 }).store id).watcher
      else pure () : Change Unit).run
        (w.modifyStore id fun s => { s with holders := s.holders - 1 }) := rfl
  rw [hrun, hstore]
  by_cases hl : (w.store id).holders - 1 = 0
  · have hdisposed : (w.modifyStore id fun s => { s with holders := s.holders - 1 }).isDisposed
        (w.store id).watcher = true := last hl
    rw [if_pos (by simp [Store.isAlive, hl])]
    simp only [retire, Change.run_bind, Change.run_get, hdisposed]
    rfl
  · rw [if_neg (by simp [Store.isAlive, hl])]
    rfl

theorem does_releaseStore (hR : Closed R) {u : Bool} (hid : id < w.stores.size) :
    Does R g u g (releaseStore id) (fun _ _ => True) w := by
  refine .intro fun hr => ?_
  obtain ⟨-, -, -, hw, -⟩ := (hR.sane hr).world.stores id hid
  by_cases hl : (w.store id).holders - 1 = 0 ∧ w.isDisposed (w.store id).watcher = false
  · have hretire : Step ⟨w, g, u⟩ ⟨(w.disposing (w.store id).watcher).note
        (.disposed (w.store id).watcher), g, u⟩ := .retire hw ⟨id, hid, rfl⟩
    refine .step hR (modify (·.modifyStore id fun s => { s with holders := s.holders - 1 })) hretire ?_ ?_
    · rw [run_releaseStore_last hl.1 hid hl.2]
      rfl
    · refine .of_step hR (.aside (.release id fun _ => ?_)) fun _ => trivial
      have hstore : ((w.disposing (w.store id).watcher).note
          (.disposed (w.store id).watcher)).store id = w.store id := by
        rw [World.store, World.store, World.note, World.stores_disposing]
      rw [hstore]
      exact w.isDisposed_disposing hw
  · have last : (w.store id).holders - 1 = 0 → w.isDisposed (w.store id).watcher :=
      fun h => by simpa [h] using hl
    refine .step hR (pure ()) (.aside (.release id last)) ?_ (.pure trivial)
    rw [run_releaseStore last hid]
    rfl

variable {k : Kernel} (hk : k.Sound R)
include hk

theorem Kernel.Sound.runs_holding {act : Act α} {Q : α → World → Prop}
    (hQ : ∀ {a w w'}, w.Extends w' → Q a w → Q a w') (hid : id < w.stores.size)
    (hact : ∀ {w'}, w.Extends w' → Runs R g e g' act Q w') :
    Runs R g e g' (holding id act) Q w := by
  refine (Runs.lift (does_holdStore hk.closed)).bind fun _ w₁ hr₁ he₁ _ => ?_
  have hid₁ := (he₁.stores id hid).1
  refine (hact he₁).ensuring (fun a w₂ _ he₂ hq => ?_) fun w₂ _ he₂ => ?_
  · exact (does_releaseStore hk.closed (he₂.stores id hid₁).1).mono fun _ _ _ he₃ _ => hQ he₃ hq
  · exact does_releaseStore hk.closed (he₂.stores id hid₁).1

end Holding

section Delivery

variable {R : Config → Prop} {k : Kernel} (hk : k.Sound R) {w : World} {g : List Frame}
variable {id : StoreId} {sub : SubscriptionId}
include hk

theorem Kernel.Sound.runs_deliver {g' : List Frame}
    (hbegin : Step ⟨w, g', false⟩
      ⟨w.callBegun sub (w.toJson (.object (w.store id).state)), .calling sub :: g, false⟩)
    (idle : (w.subscription sub).running = false) (hid : id < w.stores.size)
    (hsub : sub < w.subscriptions.size) : Runs R g' g g (deliver k id sub) (fun _ _ => True) w := by
  refine .intro fun hr => ?_
  have hs := (hk.closed.sane hr).world
  have hstate : (w.store id).state < w.objects.size := (hs.stores id hid).1
  have hcallback : (w.subscription sub).callback.Valid w := (hs.subscriptions sub hsub).2
  have he := hbegin.extends
  have ended {u : Bool} {w₁ : World} :
      Does R (.calling sub :: g) u g (do
        modify (·.modifySubscription sub fun s => { s with running := false })
        note (.returned sub)) (fun _ _ => True) w₁ :=
    .of_step hk.closed .endCall fun _ => trivial
  refine .step hk.closed ((do
    let _ ← k.call (w.subscription sub).callback [.value (.object (w.store id).state)]
    : Act Unit).ensuring do
      modify (·.modifySubscription sub fun s => { s with running := false })
      note (.returned sub)) hbegin ?_ ?_
  · rw [deliver, Act.run_get_bind]
    simp only [idle, Bool.false_eq_true, if_false]
    rfl
  refine ((hk.call (g := .calling sub :: g) trivial trivial (hcallback.mono he) ?_).bind
    fun _ _ _ _ _ => .pure trivial).ensuring (P := fun _ _ => True) (fun _ _ _ _ _ => ended)
      fun _ _ _ => ended
  intro r hr
  obtain rfl := List.mem_singleton.1 hr
  exact (he.objects _ hstate).1

omit hk in
/-- The subscribers that are left are not called if a pass is interrupted. -/
theorem Closed.passOver (hR : Closed R) {rt : RuntimeId} {subs : List SubscriptionId}
    (hr : R ⟨w, .passing id rt subs :: g, true⟩) : R ⟨w, .passing id rt [] :: g, true⟩ := by
  induction subs with
  | nil => exact hr
  | cons sub subs ih => exact ih (hR.step hr (.passOver (.inl rfl)))

/-- It is a subscriber's turn in a pass. Its callback is called if it is active still and its
callback is not running further out. -/
theorem Kernel.Sound.runs_passTurn (hid : id < w.stores.size) {rt : RuntimeId}
    {subs : List SubscriptionId} (hsub : sub < w.subscriptions.size) :
    Runs R (.passing id rt (sub :: subs) :: g) (.passing id rt subs :: g) (.passing id rt subs :: g)
      (do if ((← get).subscription sub).active then deliver k id sub) (fun _ _ => True) w := by
  have omitted {w : World} (h : (w.subscription sub).active = false ∨ (w.subscription sub).running) :
      Runs R (.passing id rt (sub :: subs) :: g) (.passing id rt subs :: g)
        (.passing id rt subs :: g) (pure () : Act Unit) (fun _ _ => True) w :=
    .step hk.closed (pure ()) (.passOver (.inr h)) rfl (.pure trivial)
  refine .get_bind ?_
  split
  · next active =>
    cases running : (w.subscription sub).running with
    | true =>
      refine .step hk.closed (pure ()) (.aside (.skipped sub)) ?_ (omitted (.inr running))
      rw [deliver, Act.run_get_bind]
      simp only [running, if_true]
      rfl
    | false => exact hk.runs_deliver (.beginCall hsub active running) running hid hsub
  · next inactive => exact omitted (.inl (eq_false_of_ne_true inactive))

theorem Kernel.Sound.runs_passTurns (hid : id < w.stores.size) {rt : RuntimeId}
    {subs : List SubscriptionId} (hsubs : ∀ sub ∈ subs, sub < w.subscriptions.size) :
    Runs R (.passing id rt subs :: g) (.passing id rt [] :: g) (.passing id rt [] :: g)
      (subs.forM fun sub => (do
        if ((← get).subscription sub).active then deliver k id sub : Act Unit))
      (fun _ _ => True) w := by
  induction subs generalizing w with
  | nil => exact .pure trivial
  | cons sub subs ih =>
    have turn : Runs R (.passing id rt (sub :: subs) :: g) (.passing id rt subs :: g) _ _ _ w :=
      hk.runs_passTurn hid (hsubs sub (List.mem_cons_self ..))
    refine (turn.unwind fun _ => hk.closed.passOver).bind fun _ w₁ _ he₁ _ => ?_
    refine ih (he₁.stores id hid).1 fun sub' h => ?_
    exact (he₁.subscriptions sub' (hsubs sub' (List.mem_cons_of_mem _ h))).1

theorem Kernel.Sound.runs_pass (hid : id < w.stores.size) {rt : RuntimeId}
    {subs : List SubscriptionId} (hsubs : ∀ sub ∈ subs, sub < w.subscriptions.size) :
    Runs R (.passing id rt subs :: g) g (.passed id :: g)
      ((subs.forM fun sub => (do
          if ((← get).subscription sub).active then deliver k id sub : Act Unit)).ensuring do
        modify (·.popContext rt)
        modify (·.modifyStore id fun s => { s with notifying := false })
        note (.passEnded id))
      (fun _ _ => True) w := by
  have ended {u : Bool} {w₁ : World} :
      Does R (.passing id rt [] :: g) u (.passed id :: g) (do
        modify (·.popContext rt)
        modify (·.modifyStore id fun s => { s with notifying := false })
        note (.passEnded id)) (fun _ _ => True) w₁ :=
    .of_step hk.closed .endPass fun _ => trivial
  refine .drop hk.closed (f := .passed id) trivial ?_
  exact (hk.runs_passTurns hid hsubs).ensuring (fun _ _ _ _ _ => ended) fun _ _ _ => ended

theorem Kernel.Sound.runs_passed {n : NodeId} (hn : (w.store id).watcher = n)
    (hw : (w.effect? n).isSome) :
    Runs R (.passed id :: g) g g (do
      if ((← get).store id).pending then
        modify fun w : World => w.modifyStore id fun s => { s with pending := false }
        schedule k n) (fun _ _ => True) w := by
  subst hn
  refine .get_bind ?_
  split
  · next pending =>
    obtain ⟨e, he⟩ := Option.isSome_iff_exists.1 hw
    have he' : (w.modifyStore id fun s => { s with pending := false }).effect?
        (w.store id).watcher = some e := he
    cases hd : e.disposed with
    | true =>
      have hdisposed : w.isDisposed (w.store id).watcher := by
        rw [World.isDisposed, he]
        exact hd
      refine .step hk.closed (pure ()) (.forgo hdisposed) ?_ (.pure trivial)
      rw [Act.run_modify_bind, schedule, Act.run_get_bind, he']
      simp only [hd, if_true]
    | false =>
      have hstep := Step.takeUp (g := g) pending he hd
      refine .step hk.closed (enqueue k e.runtime (w.store id).watcher) hstep ?_ ?_
      · rw [Act.run_modify_bind, schedule, Act.run_get_bind, he']
        simp only [hd, Bool.false_eq_true, if_false]
        rfl
      · intro hr
        have hp := hk.runs_tellEffect (hstep.extends.isSome_effect? hw) hr
        generalize (enqueue k e.runtime (w.store id).watcher).run.run _ = o at hp ⊢
        rcases o with ⟨i | a, w'⟩
        · exact hp
        · exact ⟨hk.closed.step hp.1 .told, hp.2⟩
  · next settled =>
    exact .step hk.closed (pure ()) (.settle (eq_false_of_ne_true settled)) rfl (.pure trivial)

/-- A pass that has begun comes to its end, and one that was put off is made up for. -/
theorem Kernel.Sound.runs_begun_pass (hid : id < w.stores.size) {rt : RuntimeId} {n : NodeId}
    {subs : List SubscriptionId} (hn : (w.store id).watcher = n)
    (hsubs : (w.store id).subscribers = subs) :
    Runs R (.passing id rt subs :: g) g g (do
      (subs.forM fun sub => (do
          if ((← get).subscription sub).active then deliver k id sub : Act Unit)).ensuring do
        modify (·.popContext rt)
        modify (·.modifyStore id fun s => { s with notifying := false })
        note (.passEnded id)
      if ((← get).store id).pending then
        modify fun w : World => w.modifyStore id fun s => { s with pending := false }
        schedule k n) (fun _ _ => True) w := by
  refine .intro fun hr => ?_
  obtain ⟨-, -, -, hwatcher, hvalid⟩ := (hk.closed.sane hr).world.stores id hid
  refine (hk.runs_pass hid (hsubs ▸ hvalid)).bind fun _ w₁ _ he₁ _ => ?_
  exact hk.runs_passed ((he₁.stores id hid).2.2.2.trans hn)
    (he₁.isSome_effect? (hn ▸ hwatcher))

omit hk in
theorem run_notifyStore_busy (k : Kernel) (busy : (w.store id).notifying) :
    (notifyStore k id).run.run w = (.ok (), w.passPostponed id) := by
  rw [notifyStore, Act.run_get_bind]
  simp only [busy, if_true]
  rfl

omit hk in
theorem run_notifyStore_idle (k : Kernel) (idle : (w.store id).notifying = false) :
    (notifyStore k id).run.run w = (do
      ((w.store id).subscribers.forM fun sub => (do
          if ((← get).subscription sub).active then deliver k id sub : Act Unit)).ensuring do
        modify (·.popContext (w.store id).runtime)
        modify (·.modifyStore id fun s => { s with notifying := false })
        note (.passEnded id)
      if ((← get).store id).pending then
        modify fun w : World => w.modifyStore id fun s => { s with pending := false }
        schedule k (w.store id).watcher : Act Unit).run.run (w.passBegun id) := by
  rw [notifyStore, Act.run_get_bind]
  simp only [idle, Bool.false_eq_true, if_false]
  rfl

omit hk in
theorem World.store_passBegun (w : World) (hid : id < w.stores.size) :
    (w.passBegun id).store id = { w.store id with notifying := true } := by
  change (w.modifyStore id fun s => { s with notifying := true }).store id = _
  rw [World.store_modifyStore, if_pos ⟨rfl, hid⟩]

/-- The subscribers of a store are called because the program asks for it, or the pass is put off. -/
theorem Kernel.Sound.runs_requestPass (code : AtCode g) (free : Free w g) (hid : id < w.stores.size) :
    Runs R g g g (requestPass k id) (fun _ _ => True) w := by
  have hrun : (requestPass k id).run.run w = (notifyStore k id).run.run (w.note (.passAsked id)) := rfl
  cases hn : (w.store id).notifying with
  | true =>
    refine .step hk.closed (pure ()) (.postpone code free hn) ?_ (.pure trivial)
    rw [hrun, run_notifyStore_busy k (w := w.note (.passAsked id)) hn]
    rfl
  | false =>
    have hbegin := Step.beginPass code free hid hn
    have hid' := (hbegin.extends.stores id hid).1
    have hstore := (w.note (.passAsked id)).store_passBegun hid
    refine .step hk.closed _ hbegin ?_ (hk.runs_begun_pass (n := (w.store id).watcher) hid' ?_ ?_)
    · rw [hrun, run_notifyStore_idle k (w := w.note (.passAsked id)) hn]
      rfl
    · exact (congrArg Store.watcher hstore :)
    · exact (congrArg Store.subscribers hstore :)

/-- The watcher of a store, whose turn has come, starts a pass, or has it put off. -/
theorem Kernel.Sound.runs_notifyWatched {n : NodeId} {rt : RuntimeId} {batch : List NodeId}
    {e : Effect} (he : w.effect? n = some e) (hjob : e.job = .watchStore id true)
    (hid : id < w.stores.size) :
    Runs R (.watched n :: .running n rt :: .round rt batch :: g)
      (.notified n :: .running n rt :: .round rt batch :: g)
      (.notified n :: .running n rt :: .round rt batch :: g) (notifyStore k id) (fun _ _ => True) w := by
  cases hn : (w.store id).notifying with
  | true =>
    exact .step hk.closed (pure ()) (.watchPostpone he hjob hn) (run_notifyStore_busy k hn)
      (.pure trivial)
  | false =>
    have hbegin : Step ⟨w, .watched n :: .running n rt :: .round rt batch :: g, false⟩ _ :=
      .watchPass he hjob hid hn
    have hid' := (hbegin.extends.stores id hid).1
    have hstore := w.store_passBegun hid
    refine .step hk.closed _ hbegin ?_ (hk.runs_begun_pass (n := (w.store id).watcher) hid' ?_ ?_)
    · exact run_notifyStore_idle k hn
    · exact (congrArg Store.watcher hstore :)
    · exact (congrArg Store.subscribers hstore :)

end Delivery

end Reactivity
