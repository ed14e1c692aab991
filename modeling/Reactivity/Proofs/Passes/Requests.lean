import Reactivity.Proofs.Passes.Collapsing

namespace Reactivity

/-- How many passes of calls to the subscribers of the store have begun. -/
def passesBegun (id : StoreId) (history : List Event) : Nat :=
  history.countP fun e => match e with
    | .passBegan id' => id' == id
    | _ => false

/-- How many passes of calls to the subscribers of the store have ended. -/
def passesEnded (id : StoreId) (history : List Event) : Nat :=
  history.countP fun e => match e with
    | .passEnded id' => id' == id
    | _ => false

section Signals

variable (p : Post) (old new : List Event)

theorem Post.count_began : (p.signals old new).count .began = passesBegun p.store new := by
  induction new with
  | nil => rfl
  | cons e new ih =>
    rw [signals_cons, List.count_append, ih, passesBegun, passesBegun, List.countP_cons,
      Nat.add_comm]
    refine congrArg _ ?_
    cases e with
    | passBegan id => by_cases h : id = p.store <;> simp [signal?, h]
    | passAsked | passEnded | roundBegan | started | flushEnded | triggered =>
      rw [signal?]
      split <;> rfl
    | _ => rfl

theorem Post.count_ended : (p.signals old new).count .ended = passesEnded p.store new := by
  induction new with
  | nil => rfl
  | cons e new ih =>
    rw [signals_cons, List.count_append, ih, passesEnded, passesEnded, List.countP_cons,
      Nat.add_comm]
    refine congrArg _ ?_
    cases e with
    | passEnded id => by_cases h : id = p.store <;> simp [signal?, h]
    | passAsked | passBegan | roundBegan | started | flushEnded | triggered =>
      rw [signal?]
      split <;> rfl
    | _ => rfl

theorem Post.isDue_signals : isDue (p.signals [] new) ↔ p.watcher ∈ due p.runtime new := by
  induction new with
  | nil => simp [signals, isDue, due]
  | cons e new ih =>
    rw [signals_cons]
    cases e with
    | roundBegan rt batch =>
      by_cases h : rt = p.runtime
      · simp [signal?, due, isDue, h, ih, List.count_eq_zero]
      · simp [signal?, due, h, ih]
    | started n =>
      by_cases h : n = p.watcher
      · simp [signal?, due, isDue, h]
      · simp [signal?, due, h, ih, Ne.symm h]
    | flushEnded rt =>
      by_cases h : rt = p.runtime
      · simp [signal?, due, isDue, h]
      · simp [signal?, due, h, ih]
    | passAsked id | passBegan id | passEnded id =>
      by_cases h : id = p.store
      · simp [signal?, due, isDue, h, ih]
      · simp [signal?, due, h, ih]
    | triggered x key =>
      simp only [signal?]
      split
      · exact ih
      · exact ih
    | _ => exact ih

theorem Protocol.takings_eq_zero {past : List Signal} (h : ∀ k, .taken k ∈ past → k = 0) :
    Protocol.takings past = 0 := by
  induction past with
  | nil => rfl
  | cons e past ih =>
    have ih := ih fun k hk => h k (List.mem_cons_of_mem _ hk)
    cases e with
    | taken k => rw [takings, ih, h k List.mem_cons_self]
    | _ => exact ih

variable {p old new}

theorem Post.taken_mem_signals {k : Nat} (h : .taken k ∈ p.signals old new) :
    ∃ batch, .roundBegan p.runtime batch ∈ new ∧ k = batch.count p.watcher := by
  obtain ⟨late, e, early, rfl, he⟩ := p.mem_signals.1 h
  cases e with
  | roundBegan rt batch =>
    rw [signal?] at he
    split at he
    · next hr => exact ⟨batch, by simp [hr], (Signal.taken.inj (Option.some.inj he)).symm⟩
    · cases he
  | passAsked | passBegan | passEnded | started | flushEnded | triggered =>
    rw [signal?] at he
    split at he <;> cases he
  | _ => cases he

theorem Post.mem_signals_iff {s : Signal} {e : Event}
    (he : ∀ old e', p.signal? old e' = some s ↔ e' = e) : s ∈ p.signals old new ↔ e ∈ new := by
  rw [mem_signals]
  constructor
  · rintro ⟨late, e', early, rfl, hs⟩
    rw [(he _ _).1 hs]
    simp
  · intro hm
    obtain ⟨late, early, rfl⟩ := List.append_of_mem hm
    exact ⟨late, e, early, rfl, (he _ _).2 rfl⟩

theorem Post.asked_mem_signals : .asked ∈ p.signals old new ↔ .passAsked p.store ∈ new := by
  refine mem_signals_iff fun old e => ?_
  cases e <;> simp [signal?]

theorem Post.ended_mem_signals : .ended ∈ p.signals old new ↔ .passEnded p.store ∈ new := by
  refine mem_signals_iff fun old e => ?_
  cases e <;> simp [signal?]

theorem Post.flushed_mem_signals : .flushed ∈ p.signals old new ↔ .flushEnded p.runtime ∈ new := by
  refine mem_signals_iff fun old e => ?_
  cases e <;> simp [signal?]

theorem Post.noticed_mem_signals (h : .noticed ∈ p.signals old new) : ∃ x key early,
    .triggered x key :: early <:+ new ∧
      .tracked p.watcher x key ∈ sinceStart p.watcher (early ++ old) := by
  obtain ⟨late, e, early, rfl, he⟩ := p.mem_signals.1 h
  cases e with
  | triggered x key =>
    rw [signal?] at he
    split at he
    · next hany =>
      obtain ⟨e, hm, ht⟩ := List.any_eq_true.1 hany
      exact ⟨x, key, early, ⟨late, rfl⟩, Event.tracks_iff.1 ht ▸ hm⟩
    · cases he
  | passAsked | passBegan | passEnded | started | flushEnded | roundBegan =>
    rw [signal?] at he
    split at he <;> cases he
  | _ => cases he

end Signals

/-- A pass of the store has ended, during which another one was asked for. No other one was asked for
since, and nothing that the watcher had read in its latest run has changed. -/
structure World.OwesPass (w : World) (id : StoreId) (since past : List Event) : Prop where
  history : w.history = since ++ .passEnded id :: past
  asked : ∃ during before, past = during ++ .passBegan id :: before ∧ .passEnded id ∉ during ∧
    .passAsked id ∈ during
  settled : .passAsked id ∉ since
  unchanged : ∀ h key old, .triggered h key :: old <:+ since →
    .tracked (w.store id).watcher h key ∉
      sinceStart (w.store id).watcher (old ++ .passEnded id :: past)

theorem World.OwesPass.makesUp {w : World} {g : List Frame} {id : StoreId} {since past : List Event}
    (h : w.OwesPass id since past) (hc : ((w.post id).protocol w g).Collapses) :
    ((w.post id).protocol w g).MakesUp ((w.post id).signals (.passEnded id :: past) since)
      (isDue ((w.post id).signals [] past)) := by
  obtain ⟨hh, ⟨during, before, rfl, hended, hasked⟩, hsettled, hunchanged⟩ := h
  have past (old : List Event) (e : Event) (s : Signal) (he : (w.post id).signal? old e = some s)
      (new : List Event) : (w.post id).signals [] (new ++ e :: old) =
        (w.post id).signals (e :: old) new ++ s :: (w.post id).signals [] old := by
    rw [Post.signals_append, Post.signals_cons, List.append_nil, List.append_nil, he]
    rfl
  rw [past before (.passBegan id) .began (if_pos rfl)]
  refine hc _ _ _ ?_ ?_ ?_ ?_ ?_
  · show (w.post id).signals [] w.history = _
    rw [hh, past _ (.passEnded id) .ended (if_pos rfl), past before (.passBegan id) .began (if_pos rfl)]
  · exact fun hm => hended (Post.ended_mem_signals.1 hm)
  · exact Post.asked_mem_signals.2 hasked
  · exact fun hm => hsettled (Post.asked_mem_signals.1 hm)
  · intro hm
    obtain ⟨x, key, old, hs, ht⟩ := Post.noticed_mem_signals hm
    exact hunchanged x key old hs ht

theorem Stacked.isOpen_or_run {p : Post} {w : World} {g : List Frame} (hs : Stacked w g)
    (hp : p.Of w) (hl : w.Linked) (hv : ∀ f ∈ g, f.Valid w) (code : AtCode g) :
    ∀ s ∈ (p.seats g).head?, s.isOpen ∨ s = .run := by
  have opens (top : ∀ f ∈ g.head?, f.OpensTo p) : ∀ s ∈ (p.seats g).head?, s.isOpen ∨ s = .run :=
    fun s hm => .inl (hs.onOpen hp hl hv top s hm)
  obtain _ | ⟨f, g⟩ := g
  · exact nofun
  · cases f with
    | running n rt =>
      by_cases hn : n = p.watcher
      · rw [Post.seats_of_some (f := .running n rt) (if_pos hn)]
        rintro s ⟨⟩
        exact .inr rfl
      · exact opens fun f hf => Option.some.inj hf ▸ hn
    | computing | changing | masked | amid | calling =>
      exact opens fun f hf => Option.some.inj hf ▸ trivial
    | _ => exact code.elim

theorem World.Unhurried.not_afterHook {w : World} {g : List Frame} (h : w.Unhurried) :
    ¬ AfterHook w g := by
  rintro ⟨-, rt, hhook, -⟩
  by_cases hrt : rt < w.runtimes.size
  · exact h rt hrt hhook
  · rw [World.runtime, Array.getElem?_eq_none (Nat.le_of_not_lt hrt)] at hhook
    cases hhook

/-- How many turns of the watcher of a store are still to come in the rounds that are under way when
the past ends. -/
def World.turnsToCome (w : World) (id : StoreId) (past : List Event) : Nat :=
  if (w.store id).watcher ∈ due (w.store id).runtime past then 1 else 0

theorem World.turnsToCome_eq (w : World) (id : StoreId) (past : List Event) :
    w.turnsToCome id past = (isDue ((w.post id).signals [] past)).toNat := by
  have h := (w.post id).isDue_signals past
  rw [turnsToCome]
  split
  · next hm => rw [h.2 hm, Bool.toNat_true]
  · next hm => rw [Bool.eq_false_iff.2 fun hd => hm (h.1 hd), Bool.toNat_false]

/-- Wherever the program's own code runs, a store whose watcher has not gone has made its passes one
after the other. If another pass was asked for during one, and nothing that the watcher has read has
changed since that pass has ended, the watcher waits in the queue until a round takes it, and once a
flush has ended there has been one pass more, and one for the turn that was still to come. -/
theorem passes_collapse (settings : Settings) (hook : Hook) (depth : Nat) (es : List Expr) :
    Throughout settings hook depth es fun w => w.Smooth → ∀ id, id < w.stores.size →
      w.isDisposed (w.store id).watcher = false → .gaveUp (w.store id).runtime ∉ w.history →
        (∀ old, .passBegan id :: old <:+ w.history → passesBegun id old = passesEnded id old) ∧
        ∀ since past, w.OwesPass id since past →
          ((∀ batch, .roundBegan (w.store id).runtime batch ∈ since →
              (w.store id).watcher ∉ batch) →
            (w.store id).watcher ∈ w.queue (w.store id).runtime) ∧
          passesBegun id since ≤ w.turnsToCome id past + 1 ∧
          (.flushEnded (w.store id).runtime ∈ since →
            passesBegun id since = w.turnsToCome id past + 1) := by
  refine throughout_of_reaches (fun {c} hreach hunwinding hcode => ?_) depth es
  obtain ⟨w, g, u⟩ := c
  obtain rfl : u = false := hunwinding
  intro ok id hid live kept
  have code : AtCode g := hcode.resolve_right fun after => ok.hooks.not_afterHook after
  obtain ⟨hlaw, hcollapses⟩ := hreach.collapses ok hid live kept
  have hc : Config.Sane ⟨w, g, false⟩ := hreach.sane (Config.start_sane settings hook)
  have hopen := (hreach.stacked ok.hooks).isOpen_or_run (World.post_of hid) hreach.linked hc.frames
    code
  refine ⟨fun old hold => ?_, fun since past howes => ?_⟩
  · obtain ⟨new, hnew⟩ := hold
    have hpast : (w.post id).signals [] w.history = (w.post id).signals (.passBegan id :: old) new ++
        .began :: (w.post id).signals [] old := by
      rw [← hnew, Post.signals_append, Post.signals_cons, List.append_nil, List.append_nil,
        show (w.post id).signal? old (.passBegan id) = some .began from if_pos rfl]
      rfl
    have hsingle := hlaw.single ((w.post id).signals [] old) ⟨_, hpast.symm⟩
    rwa [Post.count_began, Post.count_ended] at hsingle
  · have hmakes := howes.makesUp (g := g) hcollapses
    obtain ⟨hqueued, hle, hflushed⟩ := hmakes.atCode hlaw hopen
    rw [Post.count_began, ← w.turnsToCome_eq] at hle hflushed
    refine ⟨fun hround => ?_, hle, fun hm => hflushed (Post.flushed_mem_signals.2 hm)⟩
    refine List.count_pos_iff.1 (Nat.lt_of_lt_of_eq Nat.one_pos (hqueued ?_).symm)
    refine Protocol.takings_eq_zero fun k hm => ?_
    obtain ⟨batch, hbatch, rfl⟩ := Post.taken_mem_signals hm
    exact List.count_eq_zero.2 (hround batch hbatch)

/-- A subscriber that asks for another pass when it is called on request. -/
def callingAgain : List Expr :=
  [.store .create "s" [.literal (.object [])],
   .assign "go" (.literal (.bool false)),
   .subscribe "u" "s" (.cond (.var "go")
      (.block [.assign "go" (.literal (.bool false)), .store .notify "s" []]) .nothing),
   .assign "go" (.literal (.bool true)),
   .store .notify "s" [],
   .apply .flush []]

theorem history_callingAgain :
    ∃ before : List Event, (World.after .standard .manual 6 callingAgain).history =
      ([.flushEnded 0, .turnEnded 0 0, .finished 0, .passEnded 0, .returned 0,
        .delivered 0 (.object []), .passBegan 0, .saw 0 (.entries 0) (.list []),
        .tracked 0 (.object 0) .shape, .started 0, .cleared 0, .cleanedUp 0, .turnBegan 0 0,
        .roundBegan 0 [0], .flushBegan 0, .requested 0, .queued 0 0, .scheduled 0] : List Event) ++
      .passEnded 0 :: (([.returned 0, .passPostponed 0, .passAsked 0, .bound "go",
        .delivered 0 (.object [])] : List Event) ++ .passBegan 0 :: before) ∧
      (∀ m, .threw m ∉ before) ∧ .exhausted ∉ before ∧ .gaveUp 0 ∉ before := by
  refine ⟨_, by cbv, ?_, ?_, ?_⟩ <;> simp

theorem after_callingAgain :
    (World.after .standard .manual 6 callingAgain).runtimes.size = 1 ∧
      ((World.after .standard .manual 6 callingAgain).runtime 0).hook = .manual ∧
      (World.after .standard .manual 6 callingAgain).stores.size = 1 ∧
      ((World.after .standard .manual 6 callingAgain).store 0).watcher = 0 ∧
      ((World.after .standard .manual 6 callingAgain).store 0).runtime = 0 ∧
      (World.after .standard .manual 6 callingAgain).isDisposed 0 = false := by
  cbv

theorem passes_collapse_callingAgain :
    (Throughout .standard .manual 6 callingAgain fun w => w.Smooth → ∀ id, id < w.stores.size →
      w.isDisposed (w.store id).watcher = false → .gaveUp (w.store id).runtime ∉ w.history →
        (∀ old, .passBegan id :: old <:+ w.history → passesBegun id old = passesEnded id old) ∧
        ∀ since past, w.OwesPass id since past →
          ((∀ batch, .roundBegan (w.store id).runtime batch ∈ since →
              (w.store id).watcher ∉ batch) →
            (w.store id).watcher ∈ w.queue (w.store id).runtime) ∧
          passesBegun id since ≤ w.turnsToCome id past + 1 ∧
          (.flushEnded (w.store id).runtime ∈ since →
            passesBegun id since = w.turnsToCome id past + 1)) ∧
    ∃ w since past, w = World.after .standard .manual 6 callingAgain ∧ w.Smooth ∧
      0 < w.stores.size ∧ w.isDisposed (w.store 0).watcher = false ∧
      .gaveUp (w.store 0).runtime ∉ w.history ∧ w.OwesPass 0 since past ∧
      .flushEnded (w.store 0).runtime ∈ since := by
  refine ⟨passes_collapse .standard .manual 6 callingAgain, ?_⟩
  obtain ⟨before, history, threw, exhausted, gaveUp⟩ := history_callingAgain
  obtain ⟨runtimes, hook, stores, watcher, runtime, live⟩ := after_callingAgain
  generalize World.after .standard .manual 6 callingAgain = w at *
  have smooth : w.Smooth := by
    refine ⟨fun rt hrt => ?_, fun m hm => threw m ?_, fun hm => exhausted ?_⟩
    · obtain rfl := Nat.lt_one_iff.1 (runtimes ▸ hrt)
      rw [hook]
      nofun
    all_goals simpa [history] using hm
  refine ⟨w, _, _, rfl, smooth, stores ▸ Nat.one_pos, watcher.symm ▸ live, ?_,
    ⟨history, ⟨_, before, rfl, ?_, ?_⟩, ?_, ?_⟩, ?_⟩
  · simpa [runtime, history] using gaveUp
  · simp
  · simp
  · simp
  · intro h key old hs
    simp [List.suffix_cons_iff] at hs
  · simp [runtime]

/-- An effect that notifies the subscribers when it is scheduled, and a subscriber that asks for
another pass then. The watcher still has its turn in the same round. -/
def callingTwice : List Expr :=
  [.store .create "s" [.literal (.object [])],
   .assign "go" (.literal (.bool false)),
   .subscribe "u" "s" (.cond (.var "go")
      (.block [.assign "go" (.literal (.bool false)), .store .notify "s" []]) .nothing),
   .assign "e" (.effect (.cond (.var "go") (.store .notify "s" []) .nothing)),
   .block [.assign "go" (.literal (.bool true)), .apply .schedule [.var "e"],
     .container .set (.store .state "s" []) [.literal (.string "n"), .literal .null],
     .apply .flush []]]

set_option maxRecDepth 2000 in
theorem history_callingTwice :
    ∃ before : List Event, (World.after .standard .manual 6 callingTwice).history =
      ([.flushEnded 0, .turnEnded 0 0, .finished 0, .passEnded 0, .returned 0,
        .delivered 0 (.object [("n", .null)]), .passBegan 0,
        .saw 0 (.entries 0) (.list [.list [.ofString "n", .value .null]]),
        .tracked 0 (.object 0) (.property "n"), .tracked 0 (.object 0) .shape, .started 0,
        .cleared 0, .cleanedUp 0, .turnBegan 0 0, .roundBegan 0 [0], .turnEnded 0 0, .finished 0,
        .passEnded 0, .returned 0, .delivered 0 (.object [("n", .null)]), .passBegan 0,
        .saw 0 (.entries 0) (.list [.list [.ofString "n", .value .null]]),
        .tracked 0 (.object 0) (.property "n"), .tracked 0 (.object 0) .shape, .started 0,
        .cleared 0, .cleanedUp 0, .turnBegan 0 0, .turnEnded 0 1, .finished 1, .queued 0 0,
        .scheduled 0] : List Event) ++
      .passEnded 0 :: (([.returned 0, .passPostponed 0, .passAsked 0, .bound "go",
        .delivered 0 (.object [("n", .null)])] : List Event) ++ .passBegan 0 :: before) ∧
      (∀ m, .threw m ∉ before) ∧ .gaveUp 0 ∉ before := by
  refine ⟨_, by cbv, ?_, ?_⟩ <;> simp

set_option maxRecDepth 2000 in
theorem after_callingTwice :
    ((World.after .standard .manual 6 callingTwice).runtime 0).hook = .manual ∧
      (World.after .standard .manual 6 callingTwice).isDisposed
        ((World.after .standard .manual 6 callingTwice).store 0).watcher = false := by
  cbv

/-- Two passes follow one during which another one was asked for, although afterwards nothing is
written and no pass is asked for. -/
theorem two_passes_follow : ∃ since during before : List Event,
    (World.after .standard .manual 6 callingTwice).history =
        since ++ .passEnded 0 :: (during ++ .passBegan 0 :: before) ∧
      .passEnded 0 ∉ during ∧ .passAsked 0 ∈ during ∧ .passAsked 0 ∉ since ∧
      (∀ write, .wrote write ∉ since) ∧ .flushEnded 0 ∈ since ∧ passesBegun 0 since = 2 ∧
    (∀ m, .threw m ∉ (World.after .standard .manual 6 callingTwice).history) ∧
    .gaveUp 0 ∉ (World.after .standard .manual 6 callingTwice).history ∧
    ((World.after .standard .manual 6 callingTwice).runtime 0).hook = .manual ∧
    (World.after .standard .manual 6 callingTwice).isDisposed
      ((World.after .standard .manual 6 callingTwice).store 0).watcher = false := by
  obtain ⟨before, history, threw, gaveUp⟩ := history_callingTwice
  obtain ⟨hook, live⟩ := after_callingTwice
  generalize World.after .standard .manual 6 callingTwice = w at *
  refine ⟨_, _, before, history, ?_, ?_, ?_, ?_, ?_, rfl, ?_, ?_, hook, live⟩
  · simp
  · simp
  · simp
  · simp
  · simp
  · simpa [history] using threw
  · simpa [history] using gaveUp

end Reactivity
