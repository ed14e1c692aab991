import Reactivity.Proofs.Passes.Moves
import Reactivity.Proofs.Updates.Nesting

namespace Reactivity

/-- Passes that the event tells of are passes of stores that are there, and rounds take nodes that are
there. -/
def Event.Known (w : World) : Event → Prop
  | .passBegan id | .passEnded id => id < w.stores.size
  | .roundBegan _ batch => ∀ n ∈ batch, n < w.nodes.size
  | _ => True

theorem Event.Known.mono {w w' : World} (he : w.Extends w') {e : Event} (h : e.Known w) :
    e.Known w' := by
  cases e with
  | passBegan id | passEnded id => exact (he.stores id h).1
  | roundBegan rt batch => exact fun n hn => Nat.lt_of_lt_of_le (h n hn) he.nodes
  | _ => trivial

theorem Aside.history {w w' : World} (h : Aside w w') :
    w'.history = w.history ∨ ∃ e, w'.history = e :: w.history ∧ ∀ w : World, e.Known w := by
  cases h with
  | log | clearLog | external | task | hold | release => exact .inl rfl
  | cancel => exact .inr ⟨_, World.history_cancelled _ _, fun _ => trivial⟩
  | _ => exact .inr ⟨_, rfl, fun _ => trivial⟩

theorem Step.known {c c' : Config} (h : Step c c') (hc : c.Sane)
    (hk : ∀ e ∈ c.world.history, e.Known c.world) : ∀ e ∈ c'.world.history, e.Known c'.world := by
  have hx : c.world.Extends c'.world := h.extends
  have old : ∀ e ∈ c.world.history, e.Known c'.world := fun e he => (hk e he).mono hx
  have none (hh : c'.world.history = c.world.history) : ∀ e ∈ c'.world.history, e.Known c'.world :=
    hh ▸ old
  have one {e : Event} (hh : c'.world.history = e :: c.world.history) (he : e.Known c'.world) :
      ∀ e ∈ c'.world.history, e.Known c'.world :=
    hh ▸ List.forall_mem_cons.2 ⟨he, old⟩
  have more (new : List Event) (hh : c'.world.history = new ++ c.world.history)
      (hn : ∀ e ∈ new, e.Known c'.world) : ∀ e ∈ c'.world.history, e.Known c'.world :=
    hh ▸ List.forall_mem_append.2 ⟨hn, old⟩
  cases h with
  | aside h =>
    rcases h.history with hh | ⟨e, hh, he⟩
    · exact none hh
    · exact one hh (he _)
  | resolveObject | resolveArray | written | told | tellDisposed | tellQueued | tellDirty | tellClean
  | newMemo | abandonCompute | newEffect | newStore | beginCleaning | abandonCleaning | skipPending
  | beginWatch | keep | endReport | watched | prime | skipPass | abandonRun | mask | unmask | settle
  | forgo | newRuntime | passOver | skipTurn | endRound | drop | resume => exact none rfl
  | see | newObject | newArray | beginChange | abandonChange | markDirty | markClean | endCompute
  | addCleanup | endCleaning | endRun | watchPostpone | endWatch | takeUp | beginCall | endCall
  | subscribe | greet | beginFlush | giveUp | beginTurn | endFlush | throw | exhaust => exact one rfl trivial
  | advance h => exact one rfl (by cases h <;> trivial)
  | track => exact one (World.history_trackedBy ..) trivial
  | write _ _ _ edit => exact one edit.history trivial
  | trigger => exact one (World.history_taken ..) trivial
  | clearRunning => exact one (World.history_clearedOf ..) trivial
  | dispose => exact one (World.history_disposing ..) trivial
  | tellEffect =>
    rcases World.history_queuedIn _ _ _ with hh | hh
    · exact one hh trivial
    · exact more [_, _] hh (by simp [Event.Known])
  | schedule =>
    rcases World.history_queuedIn _ _ _ with hh | hh
    · exact more [_, _] hh (by simp [Event.Known])
    · exact more [_, _, _] hh (by simp [Event.Known])
  | endChange | postpone => exact more [_, _] rfl (by simp [Event.Known])
  | reuse =>
    refine more (_ :: Option.toList _) (congrArg _ (World.history_trackedIn ..)) ?_
    simp [Event.Known]
  | beginCompute =>
    refine more (_ :: _ :: Option.toList _) ((World.history_computing ..).trans
      (congrArg _ (congrArg _ (World.history_trackedIn ..)))) ?_
    simp [Event.Known]
  | endReading =>
    refine more (_ :: Option.toList _) (World.history_gotBy ..) ?_
    simp [Event.Known]
  | beginRun => exact more [_, _] (World.history_running ..) (by simp [Event.Known])
  | retire =>
    exact more [_, _] (congrArg _ (World.history_disposing ..)) (by simp [Event.Known])
  | watchPass _ _ valid _ => exact one rfl (hx.stores _ valid).1
  | beginPass _ _ valid _ =>
    refine more [.passBegan _, .passAsked _] rfl ?_
    simpa [Event.Known] using (hx.stores _ valid).1
  | endPass => exact one rfl (hx.stores _ (hc.frames _ List.mem_cons_self).1).1
  | @beginRound w g rt _ =>
    have valid : rt < w.runtimes.size := hc.frames _ List.mem_cons_self
    exact one rfl fun n hn => World.lt_of_effect? ((hc.world.runtimes rt valid).1 n hn)

theorem Reaches.known {settings : Settings} {hook : Hook} {c : Config}
    (h : Reaches (.start settings hook) c) : ∀ e ∈ c.world.history, e.Known c.world := by
  induction h with
  | refl => exact fun _ he => nomatch he
  | tail steps step ih => exact step.known (steps.sane (Config.start_sane settings hook)) ih

/-- Neither the store nor its watcher is there yet. -/
structure Post.Ahead (p : Post) (w : World) : Prop where
  store : w.stores.size ≤ p.store
  watcher : w.nodes.size ≤ p.watcher

/-- The seat is a flush, or what is left of a round that has nothing to do with the watcher. -/
def Seat.IsElder (s : Seat) : Prop :=
  s = .flush ∨ s = .round 0

theorem turns_eq_zero {s : List Seat} (h : ∀ f ∈ s, f.IsElder) : turns s = 0 := by
  induction s with
  | nil => rfl
  | cons f s ih =>
    rw [List.forall_mem_cons] at h
    rcases h.1 with rfl | rfl
    · exact ih h.2
    · exact (Nat.zero_add _).trans (ih h.2)

theorem isDue_eq_false {past : List Signal} (h : ∀ k, .taken k ∈ past → k = 0) :
    isDue past = false := by
  induction past with
  | nil => rfl
  | cons e past ih =>
    have ih := ih fun k hk => h k (List.mem_cons_of_mem _ hk)
    cases e with
    | taken k =>
      rw [isDue, ih, h k List.mem_cons_self]
      rfl
    | started | flushed => rfl
    | _ => exact ih

namespace Post

variable {p : Post} {f : Frame}

theorem flushing_of_seat? (h : p.seat? f = some .flush) : ∃ rt, f = .flushing rt := by
  cases f with
  | flushing rt => exact ⟨rt, rfl⟩
  | round | pending | created | running | watched | notified | passing | passed | telling =>
    rw [seat?] at h
    split at h <;> cases h
  | _ => cases h

theorem round_of_seat? {k : Nat} (h : p.seat? f = some (.round k)) :
    ∃ batch, f = .round p.runtime batch := by
  cases f with
  | round rt batch =>
    rw [seat?] at h
    split at h
    · next hr => exact ⟨batch, hr ▸ rfl⟩
    · cases h
  | flushing | pending | created | running | watched | notified | passing | passed | telling =>
    rw [seat?] at h
    split at h <;> cases h
  | _ => cases h

theorem count_flush (p : Post) (g : List Frame) :
    (p.seats g).count .flush = (flushes g).count p.runtime := by
  induction g with
  | nil => rfl
  | cons f g ih =>
    rw [seats_cons, List.count_append, ih]
    cases f with
    | flushing rt =>
      rw [flushes_flushing, seat?, List.count_cons, Nat.add_comm]
      by_cases hr : rt = p.runtime
      · simp [hr]
      · simp [hr]
    | round | pending | created | running | watched | notified | passing | passed | telling =>
      rw [seat?]
      split <;> exact Nat.zero_add _
    | _ => exact Nat.zero_add _

end Post

namespace Post.Ahead

variable {p : Post} {w w' : World} {f : Frame} {g : List Frame} (h : p.Ahead w)
include h

theorem ne_of_effect {n : NodeId} (hn : (w.effect? n).isSome) : n ≠ p.watcher :=
  Nat.ne_of_lt (Nat.lt_of_lt_of_le (World.lt_of_effect? hn) h.watcher)

theorem ne_of_store {id : StoreId} (hid : id < w.stores.size) : id ≠ p.store :=
  Nat.ne_of_lt (Nat.lt_of_lt_of_le hid h.store)

/-- What stood on the stack before the store was made is nothing to it, but for flushes. -/
theorem isElder (hf : f.Valid w) : ∀ s ∈ p.seat? f, s.IsElder := by
  intro s hs
  cases f with
  | flushing rt =>
    rw [Post.seat?] at hs
    split at hs <;> cases hs
    exact .inl rfl
  | round rt batch =>
    have hn : p.watcher ∉ batch := fun hm => h.ne_of_effect (hf.2 _ hm) rfl
    rw [Post.seat?, List.count_eq_zero.2 hn] at hs
    split at hs <;> cases hs
    exact .inr rfl
  | telling rt nodes =>
    have hn : p.watcher ∉ nodes := fun hm =>
      absurd (hf.2 _ hm) (Nat.not_lt.2 h.watcher)
    rw [Post.seat?, if_neg hn] at hs
    cases hs
  | pending n | created n | watched n | notified n =>
    rw [Post.seat?, if_neg (h.ne_of_effect hf)] at hs
    cases hs
  | running n rt =>
    rw [Post.seat?, if_neg (h.ne_of_effect hf.2)] at hs
    cases hs
  | passing id rt =>
    rw [Post.seat?, if_neg (h.ne_of_store hf.1)] at hs
    cases hs
  | passed id =>
    rw [Post.seat?, if_neg (h.ne_of_store hf)] at hs
    cases hs
  | _ => cases hs

theorem forall_isElder (hv : ∀ f ∈ g, f.Valid w) : ∀ s ∈ p.seats g, s.IsElder := by
  intro s hs
  obtain ⟨f, hf, hs⟩ := List.mem_filterMap.1 hs
  exact h.isElder (hv f hf) s hs

theorem signals (hk : ∀ e ∈ w.history, e.Known w) : ∀ s ∈ p.signals [] w.history,
    s ≠ .began ∧ s ≠ .ended ∧ ∀ k, s = .taken k → k = 0 := by
  intro s hs
  obtain ⟨late, e, early, hh, hs⟩ := (p.mem_signals).1 hs
  have he := hk e (hh ▸ List.mem_append_right _ List.mem_cons_self)
  cases e with
  | passBegan id | passEnded id =>
    rw [Post.signal?, if_neg (h.ne_of_store he)] at hs
    cases hs
  | roundBegan rt batch =>
    have hn : p.watcher ∉ batch := fun hm =>
      absurd (he _ hm) (Nat.not_lt.2 h.watcher)
    rw [Post.signal?, List.count_eq_zero.2 hn] at hs
    split at hs <;> cases hs
    exact ⟨Signal.noConfusion, Signal.noConfusion, fun k hk => (Signal.taken.inj hk).symm⟩
  | _ =>
    simp only [Post.signal?] at hs
    first | cases hs | (split at hs <;> cases hs; exact ⟨nofun, nofun, nofun⟩)

theorem seated (he : w.Extends w') (hp : p.Of w') (hl : w'.Linked) (hv : ∀ f ∈ g, f.Valid w)
    (hs : Stacked w' g) : Seated (p.seats g) := by
  induction g with
  | nil => trivial
  | cons f g ih =>
    have hv' : ∀ f ∈ g, f.Valid w := fun f hf => hv f (List.mem_cons_of_mem _ hf)
    have hg := ih hv' hs.2
    cases hf : p.seat? f with
    | none =>
      rw [Post.seats_of_none hf]
      exact hg
    | some s =>
      rw [Post.seats_of_some hf]
      refine ⟨?_, hg⟩
      rcases h.isElder (hv f List.mem_cons_self) s hf with rfl | rfl
      · obtain ⟨rt, rfl⟩ := Post.flushing_of_seat? hf
        have on : OnCode w' g := hs.1
        exact hs.2.onOpen hp hl (fun f hf => (hv' f hf).mono he) (on.opensTo hp hl)
      · obtain ⟨batch, rfl⟩ := Post.round_of_seat? hf
        obtain ⟨s, rfl⟩ := hs.1
        exact ⟨p.seats s, Post.seats_of_some (if_pos rfl)⟩

end Post.Ahead

theorem World.post_withStore (w : World) (state : ObjectId) :
    (w.withStore state).post w.stores.size =
      ⟨w.stores.size, w.nodes.size, (w.object state).runtime⟩ := by
  rw [World.post, World.store_withStore, if_pos rfl]

theorem Post.protocol_withStore {w : World} {g : List Frame} {state : ObjectId}
    (hc : Config.Sane ⟨w, g, false⟩) (valid : state < w.objects.size) :
    ((w.withStore state).post w.stores.size).protocol (w.withStore state)
      (.created w.nodes.size :: g) =
      { seats := .first :: ((w.withStore state).post w.stores.size).seats g
        queued := 0
        flushing := (w.runtime (w.object state).runtime).flushing
        running := false
        primed := false
        notifying := false
        pending := false
        past := ((w.withStore state).post w.stores.size).signals [] w.history } := by
  have hqueue : ((w.withStore state).queue (w.object state).runtime).count w.nodes.size = 0 := by
    refine List.count_eq_zero.2 fun hm => ?_
    have hn := (hc.world.runtimes _ (hc.world.objects state valid).1).1 _ hm
    exact Nat.lt_irrefl _ (World.lt_of_effect? hn)
  rw [World.post_withStore, Post.protocol, World.isRunning,
    Post.seats_of_some (f := .created _) (if_pos rfl)]
  simp only [World.effect?_withStore, World.store_withStore, if_true, hqueue]
  rfl

theorem Post.new {w : World} {g : List Frame} {state : ObjectId}
    (hc : Config.Sane ⟨w, g, false⟩) (hk : ∀ e ∈ w.history, e.Known w)
    (ha : Config.Asks ⟨w, g, false⟩ (w.object state).runtime) (valid : state < w.objects.size)
    (hl : (w.withStore state).Linked)
    (hs : Stacked (w.withStore state) (.created w.nodes.size :: g)) {p : Post}
    (hp : p = (w.withStore state).post w.stores.size) :
    (p.protocol (w.withStore state) (.created w.nodes.size :: g)).Lawful ∧
      (p.protocol (w.withStore state) (.created w.nodes.size :: g)).Collapses := by
  have he : w.Extends (w.withStore state) := .withStore w state
  have hof : p.Of (w.withStore state) :=
    hp ▸ World.post_of (by rw [World.size_stores_withStore]; exact Nat.lt_succ_self _)
  have hprotocol := Post.protocol_withStore hc valid
  rw [← hp] at hprotocol
  rw [World.post_withStore] at hp
  have hahead : p.Ahead w := hp ▸ ⟨Nat.le_refl _, Nat.le_refl _⟩
  have helder := hahead.forall_isElder (g := g) hc.frames
  have hseated := hahead.seated he hof hl hc.frames hs.2
  have hpast := hahead.signals hk
  have hon : OnCode (w.withStore state) g := hs.1
  have hopen := hs.2.onOpen hof hl (fun f hf => (hc.frames f hf).mono he) (hon.opensTo hof hl)
  have hflush : (p.seats g).count .flush =
      (w.runtime (w.object state).runtime).flushing.toNat := by
    rw [Post.count_flush, hp, ha.count]
    cases (w.runtime (w.object state).runtime).flushing <;> rfl
  rw [hprotocol]
  have hpass : .pass ∉ p.seats g := fun hm => by
    rcases helder _ hm with he | he <;> cases he
  have hdue := isDue_eq_false fun k hm => (hpast _ hm).2.2 k rfl
  have hpasses : ∀ e ∈ p.signals [] w.history, e ≠ .began ∧ e ≠ .ended := fun e hm =>
    ⟨(hpast e hm).1, (hpast e hm).2.1⟩
  exact ⟨.new rfl hseated hopen hflush (turns_eq_zero helder) hpass rfl rfl rfl rfl rfl hdue hpasses,
    .new hpasses⟩

/-- No hook flushes at once, nothing is thrown, and bodies are not nested too deeply. -/
structure World.Smooth (w : World) : Prop where
  hooks : w.Unhurried
  threw : ∀ message, .threw message ∉ w.history
  exhausted : .exhausted ∉ w.history

theorem World.Smooth.of_extends {w w' : World} (h : w'.Smooth) (he : w.Extends w') : w.Smooth where
  hooks := h.hooks.of_extends he
  threw message hm := h.threw message (he.history.subset hm)
  exhausted hm := h.exhausted (he.history.subset hm)

theorem World.Extends.post_eq {w w' : World} (he : w.Extends w') {id : StoreId}
    (hid : id < w.stores.size) : w'.post id = w.post id := by
  obtain ⟨-, hr, -, hw⟩ := he.stores id hid
  rw [World.post, World.post, hr, hw]

/-- As long as a program goes on smoothly, a store that is not given up, and whose flushes are not
either, makes up for the passes that are asked for. -/
theorem Reaches.collapses {settings : Settings} {hook : Hook} {c : Config}
    (h : Reaches (.start settings hook) c) (ok : c.world.Smooth) {id : StoreId}
    (hid : id < c.world.stores.size)
    (live : c.world.isDisposed (c.world.store id).watcher = false)
    (kept : .gaveUp (c.world.store id).runtime ∉ c.world.history) :
    ((c.world.post id).protocol c.world c.stack).Lawful ∧
      ((c.world.post id).protocol c.world c.stack).Collapses := by
  induction h with
  | refl => exact absurd hid (Nat.not_lt_zero id)
  | @tail c c' steps step ih =>
    obtain ⟨w, g, u⟩ := c
    obtain ⟨w', g', u'⟩ := c'
    have hx : w.Extends w' := step.extends
    have okw : w.Smooth := ok.of_extends hx
    obtain rfl : u = false := steps.not_unwinding okw.threw okw.exhausted
    obtain rfl : u' = false := step.not_unwinding ok.threw ok.exhausted
    have hc : Config.Sane ⟨w, g, false⟩ := steps.sane (Config.start_sane settings hook)
    have hl : w'.Linked := (steps.tail step).linked
    by_cases hold : id < w.stores.size
    · obtain ⟨-, hr, -, hwatcher⟩ := hx.stores id hold
      rw [hr] at kept
      rw [hwatcher] at live
      have hlive : w.isDisposed (w.store id).watcher = false := by
        by_contra hd
        exact Bool.false_ne_true (live.symm.trans (hx.disposed _ (by simpa using hd)))
      obtain ⟨hlaw, hcollapses⟩ := ih okw hold hlive fun hm => kept (hx.history.subset hm)
      rw [hx.post_eq hold]
      rcases step.plays (p := w.post id) hc steps.linked steps.mirrored steps.separate
        (steps.stacked okw.hooks) okw.hooks (World.post_of hold) live kept with heq | hmove
      · rw [heq]
        exact ⟨hlaw, hcollapses⟩
      · exact ⟨hmove.lawful hlaw, hmove.collapses hlaw hcollapses⟩
    · cases step.makes with
      | aside ha => exact absurd (ha.size_stores ▸ hid) hold
      | nothing hk => exact absurd (hk.stores ▸ hid) hold
      | node => exact absurd hid hold
      | @store _ state _ valid =>
        have hlt : id < w.stores.size + 1 := w.size_stores_withStore state ▸ hid
        obtain rfl : id = w.stores.size :=
          Nat.le_antisymm (Nat.le_of_lt_succ hlt) (Nat.not_lt.1 hold)
        exact Post.new hc steps.known (steps.asks _) valid hl ((steps.tail step).stacked ok.hooks) rfl

end Reactivity
