import Reactivity.Proofs.Flushing.Beats
import Reactivity.Proofs.Passes.Posts
import Reactivity.Proofs.Passes.Standing

namespace Reactivity

/-- The post is that of a store which is there. -/
structure Post.Of (p : Post) (w : World) : Prop where
  store : p.store < w.stores.size
  watcher : (w.store p.store).watcher = p.watcher
  runtime : (w.store p.store).runtime = p.runtime

theorem World.post_of {w : World} {id : StoreId} (h : id < w.stores.size) : (w.post id).Of w :=
  ⟨h, rfl, rfl⟩

namespace Post.Of

variable {p : Post} {w : World} {n : NodeId} {id : StoreId} (hp : p.Of w) (hl : w.Linked)
include hp hl

theorem effect : ∃ e primed, w.effect? p.watcher = some e ∧ e.job = .watchStore p.store primed ∧
    e.runtime = p.runtime := by
  obtain ⟨e, primed, he, hj, hr⟩ := hl.watcher p.store hp.store
  exact ⟨e, primed, hp.watcher ▸ he, hj, hr.trans hp.runtime⟩

theorem job_iff {e : Effect} {primed : Bool} (he : w.effect? n = some e)
    (hj : e.job = .watchStore id primed) : n = p.watcher ↔ id = p.store := by
  constructor
  · rintro rfl
    obtain ⟨e', primed', he', hj', -⟩ := hp.effect hl
    obtain rfl : e' = e := Option.some.inj (he'.symm.trans he)
    exact (Job.watchStore.inj (hj.symm.trans hj')).1
  · rintro rfl
    obtain ⟨-, hw⟩ := hl.store n e _ primed he hj
    exact hw.symm.trans hp.watcher

theorem watcher_iff (hid : id < w.stores.size) : (w.store id).watcher = p.watcher ↔ id = p.store := by
  obtain ⟨e, primed, he, hj, -⟩ := hl.watcher id hid
  exact hp.job_iff hl he hj

theorem ne_of_isWatcher (hn : w.isWatcher n = false) : n ≠ p.watcher := by
  rintro rfl
  obtain ⟨e, primed, he, hj, -⟩ := hp.effect hl
  rw [World.isWatcher, he, Option.any_some, hj] at hn
  cases hn

theorem runtime_eq {rt : RuntimeId} (h : w.MadeBy rt p.watcher) : rt = p.runtime := by
  obtain ⟨e, -, he, -, hr⟩ := hp.effect hl
  exact h.unique (.inl ⟨e, he, hr⟩)

theorem ne_of_memo {m : Memo} (hn : w.memo? n = some m) : n ≠ p.watcher := by
  rintro rfl
  obtain ⟨e, -, he, -⟩ := hp.effect hl
  rw [World.memo?_eq_none_of_effect? (Option.isSome_of_eq_some he)] at hn
  cases hn

theorem lt : p.watcher < w.nodes.size := by
  obtain ⟨e, -, he, -⟩ := hp.effect hl
  exact World.lt_of_effect? (Option.isSome_of_eq_some he)

/-- The watcher of a store that nobody holds has gone. -/
theorem ne_of_gone {e : Effect} {primed : Bool} (live : w.isDisposed p.watcher = false)
    (effect : w.effect? n = some e) (job : e.job = .watchStore id primed)
    (gone : (w.store id).isAlive = false) : n ≠ p.watcher := by
  rintro rfl
  obtain ⟨hid, hw⟩ := hl.store p.watcher e id primed effect job
  have hzero : (w.store id).holders = 0 := by simpa [Store.isAlive] using gone
  exact Bool.false_ne_true (live.symm.trans (hw ▸ hl.gone id hid hzero))

end Post.Of

section Seats

variable {p : Post} {f : Frame} {g : List Frame} {s : Seat}

theorem Post.seats_of_none (h : p.seat? f = none) : p.seats (f :: g) = p.seats g :=
  List.filterMap_cons_none h

theorem Post.seats_of_some (h : p.seat? f = some s) : p.seats (f :: g) = s :: p.seats g :=
  List.filterMap_cons_some h

/-- As far as the store and its watcher are concerned, the program's own code runs on the frame, or
would on those below it. -/
def Frame.OpensTo (p : Post) : Frame → Prop
  | .writing .. | .telling .. | .beyond => False
  | .created n | .running n _ | .watched n | .notified n => n ≠ p.watcher
  | .passed id => id ≠ p.store
  | .flushing rt => rt ≠ p.runtime
  | _ => True

theorem Frame.OpensTo.isOpen (h : f.OpensTo p) (hs : p.seat? f = some s) : s.isOpen := by
  cases f with
  | writing | telling | beyond => exact h.elim
  | created | running | watched | notified | passed | flushing =>
    rw [Post.seat?, if_neg h] at hs
    cases hs
  | pending | round | passing =>
    rw [Post.seat?] at hs
    split at hs <;> cases hs
    rfl
  | _ => cases hs

theorem OnOpen.of_cons (hf : f.OpensTo p) (below : p.seat? f = none → OnOpen (p.seats g)) :
    OnOpen (p.seats (f :: g)) := by
  cases h : p.seat? f with
  | none =>
    rw [Post.seats_of_none h]
    exact below h
  | some s =>
    rw [Post.seats_of_some h]
    rintro s' ⟨⟩
    exact hf.isOpen h

variable {w : World} (hp : p.Of w) (hl : w.Linked)
include hp hl

theorem OnCode.opensTo (h : OnCode w g) : ∀ f ∈ g.head?, f.OpensTo p := by
  intro f hf
  obtain _ | ⟨f', g⟩ := g
  · cases hf
  · obtain rfl := Option.some.inj hf
    obtain ⟨code, other⟩ := h
    cases f' with
    | running n rt => exact hp.ne_of_isWatcher hl (other n rt g rfl)
    | computing | reading | changing | masked | amid | calling => trivial
    | _ => exact code.elim

theorem OnNotified.opensTo {id : StoreId} (hid : id < w.stores.size) (h : OnNotified w id g)
    (other : id ≠ p.store) : ∀ f ∈ g.head?, f.OpensTo p := by
  obtain ⟨rt, batch, s, rfl⟩ := h
  rintro f ⟨⟩
  exact fun hw => other ((hp.watcher_iff hl hid).1 hw)

theorem Stacked.onOpen (hs : Stacked w g) (hv : ∀ f ∈ g, f.Valid w)
    (top : ∀ f ∈ g.head?, f.OpensTo p) : OnOpen (p.seats g) := by
  induction g with
  | nil => rintro f ⟨⟩
  | cons f g ih =>
    obtain ⟨hf, hg⟩ := hs
    have hf' := top f rfl
    have hvalid := hv f List.mem_cons_self
    have below (top : ∀ f ∈ g.head?, f.OpensTo p) : OnOpen (p.seats g) :=
      ih hg (fun f hm => hv f (List.mem_cons_of_mem _ hm)) top
    have code (h : OnCode w g) : OnOpen (p.seats g) := below (h.opensTo hp hl)
    have head {f' : Frame} {s : List Frame} (hs : g = f' :: s) (hf' : f'.OpensTo p) :
        OnOpen (p.seats g) := by
      refine below fun f hf => ?_
      rw [hs] at hf
      exact Option.some.inj hf ▸ hf'
    refine .of_cons hf' fun hnone => ?_
    cases f with
    | writing | telling | beyond => exact hf'.elim
    | pending n =>
      obtain ⟨rt, batch, s, hs⟩ := hf
      exact head hs trivial
    | round rt batch =>
      obtain ⟨s, hs⟩ := hf
      refine head hs ?_
      rintro rfl
      rw [Post.seat?, if_pos rfl] at hnone
      cases hnone
    | passing id rt =>
      refine hf.elim code fun hn => below (hn.opensTo hp hl hvalid.1 ?_)
      rintro rfl
      rw [Post.seat?, if_pos rfl] at hnone
      cases hnone
    | computing n rt start =>
      obtain ⟨reader, s, hs⟩ := hf
      exact head hs trivial
    | reading | changing | masked | created | flushing | greeting => exact code hf
    | running n rt => exact hf.elim code fun ⟨batch, s, hs⟩ => head hs trivial
    | watched n | notified n =>
      obtain ⟨rt, s, hs⟩ := hf
      exact head hs hf'
    | amid s => exact hf.elim code fun ⟨g', hs⟩ => head hs trivial
    | passed id => exact hf.elim code fun hn => below (hn.opensTo hp hl hvalid hf')
    | calling sub =>
      refine hf.elim code fun hpassing => below fun f hf => ?_
      obtain _ | ⟨f', s⟩ := g
      · cases hf
      · obtain rfl := Option.some.inj hf
        cases f' with
        | passing => trivial
        | _ => exact hpassing.elim

/-- A change of which the watcher is still to be told fits on what is being told of another one. -/
theorem Stacked.fitsOn_telling (hs : Stacked w g) (hv : ∀ f ∈ g, f.Valid w)
    (hh : ∀ f ∈ g, f.AtHome w) (top : ∃ f ∈ g.head?, f.Triggers) :
    Seat.telling.FitsOn (p.seats g) := by
  induction g with
  | nil => obtain ⟨f, ⟨⟩, -⟩ := top
  | cons f g ih =>
    obtain ⟨_, ⟨⟩, hf'⟩ := top
    obtain ⟨hf, hg⟩ := hs
    have hv' : ∀ f ∈ g, f.Valid w := fun f hm => hv f (List.mem_cons_of_mem _ hm)
    have hh' : ∀ f ∈ g, f.AtHome w := fun f hm => hh f (List.mem_cons_of_mem _ hm)
    have below (top : ∃ f ∈ g.head?, f.Triggers) : Seat.telling.FitsOn (p.seats g) :=
      ih hg hv' hh' top
    have code (h : OnCode w g) : Seat.telling.FitsOn (p.seats g) :=
      .inl (hg.onOpen hp hl hv' (h.opensTo hp hl))
    cases f with
    | writing rt x keys =>
      rw [Post.seats_of_none rfl]
      refine hf.elim code ?_
      rintro ⟨rt', nodes, s, rfl⟩
      exact below ⟨_, rfl, trivial⟩
    | telling rt nodes =>
      by_cases hn : p.watcher ∈ nodes
      · rw [Post.seats_of_some (f := .telling rt nodes) (if_pos hn)]
        exact .inr (.inr ⟨_, rfl⟩)
      · rw [Post.seats_of_none (f := .telling rt nodes) (if_neg hn)]
        rcases hf with hc | ⟨id, hid, hn⟩ | ⟨rt', x, keys, s, rfl⟩
        · exact code hc
        · by_cases hid' : id = p.store
          · obtain ⟨rt', batch, s, rfl⟩ := hn
            rw [hid', hp.watcher] at hh' ⊢
            have hrt : rt' = p.runtime :=
              hp.runtime_eq hl (hh' (.running p.watcher rt') (by simp))
            refine .inr (.inl ⟨batch.count p.watcher, p.seats s, ?_⟩)
            rw [Post.seats_of_some (f := .notified _) (if_pos rfl),
              Post.seats_of_some (f := .running _ _) (if_pos rfl),
              Post.seats_of_some (f := .round _ _) (if_pos hrt)]
          · exact .inl (hg.onOpen hp hl hv' (hn.opensTo hp hl hid hid'))
        · exact below ⟨_, rfl, trivial⟩
    | _ => exact absurd hf' id

end Seats

namespace Post

section Equations

variable {p : Post} {w : World}

theorem protocol_note {e : Event} {s : Signal} (he : p.signal? w.history e = some s)
    (g : List Frame) : p.protocol (w.note e) g =
      { p.protocol w g with past := s :: (p.protocol w g).past } := by
  have past : p.signals [] (e :: w.history) = s :: p.signals [] w.history := by
    rw [signals_cons, List.append_nil, he]
    rfl
  simp only [protocol, World.history_note, past]
  rfl

theorem protocol_run (h : (w.effect? p.watcher).isSome) (b : Bool) (g : List Frame) :
    p.protocol (w.modifyEffect p.watcher fun e => { e with running := b }) g =
      { p.protocol w g with running := b } := by
  obtain ⟨e, he⟩ := Option.isSome_iff_exists.1 h
  simp only [protocol, World.isRunning, World.effect?_modifyEffect, if_true, he]
  rfl

theorem protocol_modifyStore (hid : p.store < w.stores.size) (f : Store → Store) (g : List Frame) :
    p.protocol (w.modifyStore p.store f) g =
      { p.protocol w g with
        notifying := (f (w.store p.store)).notifying, pending := (f (w.store p.store)).pending } := by
  have hs : (w.modifyStore p.store f).store p.store = f (w.store p.store) := by
    rw [World.store_modifyStore, if_pos ⟨rfl, hid⟩]
  simp only [protocol, hs]
  rfl

theorem protocol_modifyRuntime (hrt : p.runtime < w.runtimes.size) (f : Runtime → Runtime)
    (g : List Frame) : p.protocol (w.modifyRuntime p.runtime f) g =
      { p.protocol w g with
        queued := (f (w.runtime p.runtime)).queue.count p.watcher
        flushing := (f (w.runtime p.runtime)).flushing } := by
  have hr : (w.modifyRuntime p.runtime f).runtime p.runtime = f (w.runtime p.runtime) := by
    rw [World.runtime_modifyRuntime, if_pos ⟨rfl, hrt⟩]
  simp only [protocol, World.queue, hr]
  rfl

theorem protocol_queuedIn (hrt : p.runtime < w.runtimes.size) (g : List Frame) :
    p.protocol (w.queuedIn p.runtime p.watcher) g =
      { p.protocol w g with queued := (p.protocol w g).queued + 1 } := by
  have hq : p.protocol ((w.note (.queued p.runtime p.watcher)).modifyRuntime p.runtime fun r =>
      { r with queue := r.queue ++ [p.watcher] }) g =
        { p.protocol w g with queued := (p.protocol w g).queued + 1 } := by
    rw [protocol_modifyRuntime (w := w.note _) hrt, (Overlooks.note p w rfl).protocol_eq rfl]
    simp only [World.runtime_note, List.count_append, List.count_singleton_self]
    rfl
  rw [World.queuedIn_eq]
  split
  · exact hq
  · exact ((Overlooks.requested p _ p.runtime).protocol_eq rfl).trans hq

theorem protocol_running (h : (w.effect? p.watcher).isSome) (rt : RuntimeId) (g : List Frame) :
    p.protocol (w.running p.watcher rt) g =
      { p.protocol w g with running := true, past := .started :: (p.protocol w g).past } := by
  have ho : p.Overlooks w ((w.clearedOf p.watcher).pushContext rt (some p.watcher)) :=
    (Overlooks.clearedOf p w _).trans (.pushContext p _ rt _)
  rw [World.running, protocol_note (e := .started _) (if_pos rfl),
    protocol_run (ho.isSome_effect? h), ho.protocol_eq rfl]

theorem protocol_ran (h : (w.effect? p.watcher).isSome) (rt : RuntimeId) (g : List Frame) :
    p.protocol (w.ran p.watcher rt) g = { p.protocol w g with running := false } := by
  have ho (w : World) : p.Overlooks w (((w.note (.finished p.watcher)).modifyEffect p.watcher
      fun e => { e with runCount := e.runCount + 1 }).popContext rt) := by
    refine .trans ?_ (.popContext p _ rt)
    exact (Overlooks.note p w rfl).trans (.modifyEffect p _ _ fun _ _ => ⟨rfl, rfl⟩)
  rw [World.ran, (ho _).protocol_eq rfl, protocol_run h]

theorem protocol_passBegun (hid : p.store < w.stores.size) (g : List Frame) :
    p.protocol (w.passBegun p.store) g =
      { p.protocol w g with notifying := true, past := .began :: (p.protocol w g).past } := by
  rw [World.passBegun, (Overlooks.pushContext p _ _ none).protocol_eq rfl,
    protocol_modifyStore (w := w.note _) hid, protocol_note (e := .passBegan _) (if_pos rfl)]
  rfl

theorem protocol_passEnded (hid : p.store < w.stores.size) (rt : RuntimeId) (g : List Frame) :
    p.protocol (w.passEnded p.store rt) g =
      { p.protocol w g with notifying := false, past := .ended :: (p.protocol w g).past } := by
  rw [World.passEnded, protocol_note (e := .passEnded _) (if_pos rfl),
    protocol_modifyStore (w := w.popContext rt) hid,
    (Overlooks.popContext p w rt).protocol_eq rfl]
  rfl

theorem protocol_passPostponed (hid : p.store < w.stores.size) (g : List Frame) :
    p.protocol (w.passPostponed p.store) g = { p.protocol w g with pending := true } := by
  rw [World.passPostponed, protocol_modifyStore (w := w.note _) hid,
    (Overlooks.note p w rfl).protocol_eq rfl]
  rfl

theorem protocol_flushBegun (hrt : p.runtime < w.runtimes.size) (g : List Frame) :
    p.protocol (w.flushBegun p.runtime) g = { p.protocol w g with flushing := true } := by
  rw [World.flushBegun, protocol_modifyRuntime (w := w.note _) hrt,
    (Overlooks.note p w rfl).protocol_eq rfl]
  rfl

theorem protocol_roundBegun (hrt : p.runtime < w.runtimes.size) (g : List Frame) :
    p.protocol (w.roundBegun p.runtime) g =
      { p.protocol w g with
        queued := 0, past := .taken (p.protocol w g).queued :: (p.protocol w g).past } := by
  rw [World.roundBegun, protocol_note (e := .roundBegan _ _) (if_pos rfl),
    protocol_modifyRuntime hrt]
  rfl

theorem protocol_flushEnded (hrt : p.runtime < w.runtimes.size) (g : List Frame) :
    p.protocol (w.flushEnded p.runtime) g =
      { p.protocol w g with flushing := false, past := .flushed :: (p.protocol w g).past } := by
  rw [World.flushEnded, protocol_note (e := .flushEnded _) (if_pos rfl), protocol_modifyRuntime hrt]
  rfl

end Equations

end Post

section Seats

variable {p : Post} {n : NodeId} {g : List Frame}

theorem Post.seats_congr {f f' : Frame} (h : p.seat? f = p.seat? f') :
    p.seats (f :: g) = p.seats (f' :: g) := by
  rw [Post.seats_cons, Post.seats_cons, h]

theorem Post.seats_round (hn : n ≠ p.watcher) (rt : RuntimeId) (batch : List NodeId) :
    p.seats (.round rt batch :: g) = p.seats (.round rt (n :: batch) :: g) :=
  Post.seats_congr (by simp only [Post.seat?, List.count_cons_of_ne hn])

theorem Post.seats_telling (hn : n ≠ p.watcher) (rt : RuntimeId) (ns : List NodeId) :
    p.seats (.telling rt ns :: g) = p.seats (.telling rt (n :: ns) :: g) :=
  Post.seats_congr (by simp only [Post.seat?, List.mem_cons, hn.symm, false_or])

theorem Post.seats_told (p : Post) (rt : RuntimeId) (ns : List NodeId) :
    p.seats (.telling rt ns :: g) = p.seats g ∨
      p.seats (.telling rt ns :: g) = .telling :: p.seats g := by
  by_cases hm : p.watcher ∈ ns
  · exact .inr (Post.seats_of_some (f := .telling rt ns) (if_pos hm))
  · exact .inl (Post.seats_of_none (f := .telling rt ns) (if_neg hm))

end Seats

/-- The affairs of a store are what they were, or have gone on by a move. -/
def Protocol.Plays (q q' : Protocol) : Prop :=
  q' = q ∨ q.Move q'

theorem Post.Overlooks.plays {p : Post} {w w' : World} {g g' : List Frame} (h : p.Overlooks w w')
    (hg : p.seats g' = p.seats g) : (p.protocol w g).Plays (p.protocol w' g') :=
  .inl (h.protocol_eq hg)

theorem Protocol.Move.plays {q q' r : Protocol} (h : q.Move r) (he : q' = r) : q.Plays q' :=
  .inr (he ▸ h)

section Plays

variable {p : Post} {w : World} {g : List Frame}

theorem Post.plays_trigger {rt : RuntimeId} {x : Handle} {key : Key} {keys : List Key}
    (hm : w.Mirrored) (fits : Seat.telling.FitsOn (p.seats (.writing rt x (key :: keys) :: g))) :
    (p.protocol w (.writing rt x (key :: keys) :: g)).Plays
      (p.protocol (w.taken x key)
        (.telling rt ((w.readers x).on key) :: .writing rt x keys :: g)) := by
  have ho : p.Overlooks (w.note (.triggered x key)) (w.taken x key) := .modifyReaders p _ x _
  have hnoticed (hread : .tracked p.watcher x key ∈ sinceStart p.watcher w.history) :
      p.signal? w.history (.triggered x key) = some .noticed :=
    if_pos (List.any_eq_true.2 ⟨_, hread, Event.tracks_iff.2 rfl⟩)
  by_cases hmem : p.watcher ∈ (w.readers x).on key
  · have hseats : p.seats (.telling rt ((w.readers x).on key) :: .writing rt x keys :: g) =
        .telling :: p.seats (.writing rt x (key :: keys) :: g) :=
      Post.seats_of_some (f := .telling _ _) (if_pos hmem)
    refine (Protocol.Move.tell fits).plays ?_
    rw [ho.protocol_eq rfl, Post.protocol_note (hnoticed (hm.run x key _ (Readers.mem_on.1 hmem)))]
    simp only [Post.protocol, hseats]
  · have hseats : p.seats (.telling rt ((w.readers x).on key) :: .writing rt x keys :: g) =
        p.seats (.writing rt x (key :: keys) :: g) :=
      Post.seats_of_none (f := .telling _ _) (if_neg hmem)
    -- The watcher may have read the part, but have been told of another change of it.
    by_cases hread : .tracked p.watcher x key ∈ sinceStart p.watcher w.history
    · refine Protocol.Move.notice.plays ?_
      rw [ho.protocol_eq rfl, Post.protocol_note (hnoticed hread)]
      simp only [Post.protocol, hseats]
    · have hnone : p.signal? w.history (.triggered x key) = none := if_neg fun hany => by
        obtain ⟨e, he, ht⟩ := List.any_eq_true.1 hany
        exact hread (Event.tracks_iff.1 ht ▸ he)
      exact ((Post.Overlooks.note p w hnone).trans ho).plays hseats

section Telling

variable {rt : RuntimeId} {n : NodeId} {ns : List NodeId} (made : n = p.watcher → rt = p.runtime)
include made

theorem Post.plays_tellQueued (queued : n ∈ (w.runtime rt).queue) :
    (p.protocol w (.telling rt (n :: ns) :: g)).Plays (p.protocol w (.telling rt ns :: g)) := by
  by_cases hn : n = p.watcher
  · obtain rfl := made hn
    subst hn
    have hone : 1 ≤ (w.queue p.runtime).count p.watcher := List.count_pos_iff.2 queued
    refine (Protocol.Move.queue (Post.seats_of_some (f := .telling _ _)
      (if_pos List.mem_cons_self)) (p.seats_told p.runtime ns)).plays ?_
    simp only [Post.protocol, Nat.max_eq_left hone]
  · exact (Post.Overlooks.refl p w).plays (Post.seats_telling hn _ _)

theorem Post.plays_tellEffect (hrt : p.runtime < w.runtimes.size)
    (fresh : n ∉ (w.runtime rt).queue) :
    (p.protocol w (.telling rt (n :: ns) :: g)).Plays
      (p.protocol (w.queuedIn rt n) (.telling rt ns :: g)) := by
  by_cases hn : n = p.watcher
  · obtain rfl := made hn
    subst hn
    have hzero : (w.queue p.runtime).count p.watcher = 0 := List.count_eq_zero.2 fresh
    refine (Protocol.Move.queue (Post.seats_of_some (f := .telling _ _)
      (if_pos List.mem_cons_self)) (p.seats_told p.runtime ns)).plays ?_
    rw [Post.protocol_queuedIn hrt]
    simp only [Post.protocol, hzero]
    rfl
  · exact (Post.Overlooks.queuedIn p w hn).plays (Post.seats_telling hn _ _)

end Telling

section Turns

variable {n : NodeId} {rt : RuntimeId} {e : Effect}

theorem Post.plays_clearRunning (effect : w.effect? n = some e) (busy : e.running) :
    (p.protocol w (.pending n :: g)).Plays (p.protocol (w.clearedOf n) g) := by
  have ho : p.Overlooks w (w.clearedOf n) := .clearedOf p w n
  by_cases hn : n = p.watcher
  · subst hn
    have hrun : w.isRunning p.watcher := by
      rw [World.isRunning, effect]
      exact busy
    refine (Protocol.Move.dropTurn (Post.seats_of_some (f := .pending _) (if_pos rfl)) hrun).plays ?_
    rw [ho.protocol_eq rfl]
    rfl
  · exact ho.plays (Post.seats_of_none (f := .pending _) (if_neg hn)).symm

theorem Post.plays_beginRun {f : Frame} (hwatcher : (w.effect? p.watcher).isSome)
    (turn : f = .pending n ∨ f = .created n) :
    (p.protocol w (f :: g)).Plays (p.protocol (w.running n rt) (.running n rt :: g)) := by
  by_cases hn : n = p.watcher
  · subst hn
    have hseats : p.seats (.running p.watcher rt :: g) = .run :: p.seats g :=
      Post.seats_of_some (f := .running _ _) (if_pos rfl)
    rcases turn with rfl | rfl
    · refine (Protocol.Move.takeTurn (Post.seats_of_some (f := .pending _) (if_pos rfl))).plays ?_
      rw [Post.protocol_running hwatcher]
      simp only [Post.protocol, hseats]
    · refine (Protocol.Move.start (Post.seats_of_some (f := .created _) (if_pos rfl))).plays ?_
      rw [Post.protocol_running hwatcher]
      simp only [Post.protocol, hseats]
  · refine (Post.Overlooks.starting p w hn rt).plays ?_
    rw [Post.seats_of_none (f := .running _ _) (if_neg hn)]
    rcases turn with rfl | rfl
    · exact (Post.seats_of_none (f := .pending _) (if_neg hn)).symm
    · exact (Post.seats_of_none (f := .created _) (if_neg hn)).symm

theorem Post.plays_watched :
    (p.protocol w (.running n rt :: g)).Plays
      (p.protocol w (.watched n :: .running n rt :: g)) := by
  by_cases hn : n = p.watcher
  · subst hn
    have hseats : p.seats (.watched p.watcher :: .running p.watcher rt :: g) =
        .read :: .run :: p.seats g := by
      rw [Post.seats_of_some (f := .watched _) (if_pos rfl),
        Post.seats_of_some (f := .running _ _) (if_pos rfl)]
    refine (Protocol.Move.read (Post.seats_of_some (f := .running _ _) (if_pos rfl))).plays ?_
    simp only [Post.protocol, hseats]
  · exact (Post.Overlooks.refl p w).plays (Post.seats_of_none (f := .watched _) (if_neg hn))

theorem Post.seats_watched_of_ne (hn : n ≠ p.watcher) :
    p.seats (.notified n :: g) = p.seats (.watched n :: g) := by
  rw [Post.seats_of_none (f := .notified _) (if_neg hn),
    Post.seats_of_none (f := .watched _) (if_neg hn)]

theorem World.isPrimed_eq {id : StoreId} {primed : Bool} (effect : w.effect? n = some e)
    (job : e.job = .watchStore id primed) : (w.effect? n).any (·.job.isPrimed) = primed := by
  rw [effect, Option.any_some, job]
  cases primed <;> rfl

theorem Post.plays_prime {id : StoreId} (effect : w.effect? n = some e)
    (job : e.job = .watchStore id false) :
    (p.protocol w (.watched n :: g)).Plays
      (p.protocol (w.modifyEffect n fun e => { e with job := .watchStore id true })
        (.notified n :: g)) := by
  by_cases hn : n = p.watcher
  · subst hn
    have hseats : p.seats (.notified p.watcher :: g) = .done :: p.seats g :=
      Post.seats_of_some (f := .notified _) (if_pos rfl)
    refine (Protocol.Move.prime (Post.seats_of_some (f := .watched _) (if_pos rfl))
      (World.isPrimed_eq effect job)).plays ?_
    simp only [Post.protocol, hseats, World.isRunning, World.effect?_modifyEffect, if_true, effect]
    rfl
  · exact (Post.Overlooks.modifyEffect p w n fun h => absurd h hn).plays
      (Post.seats_watched_of_ne hn)

theorem Post.plays_watchPass {batch : List NodeId} {id : StoreId} {subs : List SubscriptionId}
    (same : n = p.watcher ↔ id = p.store) (made : n = p.watcher → rt = p.runtime)
    (effect : w.effect? n = some e) (job : e.job = .watchStore id true)
    (valid : id < w.stores.size) (idle : (w.store id).notifying = false) :
    (p.protocol w (.watched n :: .running n rt :: .round rt batch :: g)).Plays
      (p.protocol (w.passBegun id) (.passing id (w.store id).runtime subs :: .notified n ::
        .running n rt :: .round rt batch :: g)) := by
  by_cases hn : n = p.watcher
  · obtain rfl := same.1 hn
    obtain rfl := made hn
    subst hn
    have hrest : p.seats (.running p.watcher p.runtime :: .round p.runtime batch :: g) =
        .run :: .round (batch.count p.watcher) :: p.seats g := by
      rw [Post.seats_of_some (f := .running _ _) (if_pos rfl),
        Post.seats_of_some (f := .round _ _) (if_pos rfl)]
    have hread : p.seats (.watched p.watcher :: .running p.watcher p.runtime ::
        .round p.runtime batch :: g) = .read :: .run :: .round (batch.count p.watcher) :: p.seats g := by
      rw [Post.seats_of_some (f := .watched _) (if_pos rfl), hrest]
    refine (Protocol.Move.watchPass hread (World.isPrimed_eq effect job) idle).plays ?_
    rw [Post.protocol_passBegun valid]
    simp only [Post.protocol, Post.seats_of_some (f := .passing p.store _ _) (if_pos rfl),
      Post.seats_of_some (f := .notified p.watcher) (if_pos rfl), hrest]
  · have hid : id ≠ p.store := fun h => hn (same.2 h)
    refine (Post.Overlooks.passBegun p w hid).plays ?_
    rw [Post.seats_of_none (f := .passing _ _ _) (if_neg hid), Post.seats_watched_of_ne hn]

theorem Post.plays_watchPostpone {id : StoreId} (same : n = p.watcher ↔ id = p.store)
    (effect : w.effect? n = some e) (job : e.job = .watchStore id true)
    (valid : p.store < w.stores.size) (busy : (w.store id).notifying) :
    (p.protocol w (.watched n :: g)).Plays
      (p.protocol (w.passPostponed id) (.notified n :: g)) := by
  by_cases hn : n = p.watcher
  · obtain rfl := same.1 hn
    subst hn
    refine (Protocol.Move.watchPostpone (Post.seats_of_some (f := .watched _) (if_pos rfl))
      (World.isPrimed_eq effect job) busy).plays ?_
    rw [Post.protocol_passPostponed valid]
    simp only [Post.protocol, Post.seats_of_some (f := .notified p.watcher) (if_pos rfl)]
  · exact (Post.Overlooks.passPostponed p w fun h => hn (same.2 h)).plays
      (Post.seats_watched_of_ne hn)

theorem Post.plays_endWatch (hwatcher : (w.effect? p.watcher).isSome) :
    (p.protocol w (.notified n :: .running n rt :: g)).Plays (p.protocol (w.ran n rt) g) := by
  by_cases hn : n = p.watcher
  · subst hn
    have hseats : p.seats (.notified p.watcher :: .running p.watcher rt :: g) =
        .done :: .run :: p.seats g := by
      rw [Post.seats_of_some (f := .notified _) (if_pos rfl),
        Post.seats_of_some (f := .running _ _) (if_pos rfl)]
    refine (Protocol.Move.endRun hseats).plays ?_
    rw [Post.protocol_ran hwatcher]
    rfl
  · refine (Post.Overlooks.ran p w hn rt).plays ?_
    rw [Post.seats_of_none (f := .notified _) (if_neg hn),
      Post.seats_of_none (f := .running _ _) (if_neg hn)]

theorem Post.plays_beginTurn {batch : List NodeId} (made : n = p.watcher → rt = p.runtime) :
    (p.protocol w (.round rt (n :: batch) :: g)).Plays
      (p.protocol (w.note (.turnBegan rt n)) (.pending n :: .round rt batch :: g)) := by
  have ho : p.Overlooks w (w.note (.turnBegan rt n)) := .note p w rfl
  by_cases hn : n = p.watcher
  · obtain rfl := made hn
    subst hn
    have hround : p.seats (.round p.runtime (p.watcher :: batch) :: g) =
        .round (batch.count p.watcher + 1) :: p.seats g := by
      rw [Post.seats_of_some (f := .round _ _) (if_pos rfl), List.count_cons_self]
    refine (Protocol.Move.beginTurn hround).plays ?_
    rw [ho.protocol_eq rfl]
    simp only [Post.protocol, Post.seats_of_some (f := .pending p.watcher) (if_pos rfl),
      Post.seats_of_some (f := .round p.runtime batch) (if_pos rfl)]
  · refine ho.plays ?_
    rw [Post.seats_of_none (f := .pending _) (if_neg hn)]
    exact Post.seats_round hn _ _

end Turns

section Store

variable {id : StoreId} {rt : RuntimeId}

theorem Post.plays_beginPass {subs : List SubscriptionId}
    (on : OnOpen (p.seats g)) (valid : id < w.stores.size)
    (idle : (w.store id).notifying = false) :
    (p.protocol w g).Plays
      (p.protocol ((w.note (.passAsked id)).passBegun id)
        (.passing id (w.store id).runtime subs :: g)) := by
  by_cases hid : id = p.store
  · subst hid
    refine (Protocol.Move.beginPass on idle).plays ?_
    rw [Post.protocol_passBegun (w := w.note _) valid,
      Post.protocol_note (e := .passAsked _) (if_pos rfl)]
    simp only [Post.protocol, Post.seats_of_some (f := .passing p.store _ _) (if_pos rfl)]
  · exact ((Post.Overlooks.note p w (e := .passAsked id) (if_neg hid)).trans
      (.passBegun p _ hid)).plays (Post.seats_of_none (f := .passing _ _ _) (if_neg hid))

variable (valid : p.store < w.stores.size)
include valid

theorem Post.plays_postpone (busy : (w.store id).notifying) :
    (p.protocol w g).Plays (p.protocol ((w.note (.passAsked id)).passPostponed id) g) := by
  by_cases hid : id = p.store
  · subst hid
    refine (Protocol.Move.postpone busy).plays ?_
    rw [Post.protocol_passPostponed (w := w.note _) valid,
      Post.protocol_note (e := .passAsked _) (if_pos rfl)]
  · exact ((Post.Overlooks.note p w (e := .passAsked id) (if_neg hid)).trans
      (.passPostponed p _ hid)).plays rfl

theorem Post.plays_endPass :
    (p.protocol w (.passing id rt [] :: g)).Plays
      (p.protocol (w.passEnded id rt) (.passed id :: g)) := by
  by_cases hid : id = p.store
  · subst hid
    refine (Protocol.Move.endPass (Post.seats_of_some (f := .passing _ _ _) (if_pos rfl))).plays ?_
    rw [Post.protocol_passEnded valid]
    simp only [Post.protocol, Post.seats_of_some (f := .passed p.store) (if_pos rfl)]
  · refine (Post.Overlooks.passEnded p w hid rt).plays ?_
    rw [Post.seats_of_none (f := .passed _) (if_neg hid),
      Post.seats_of_none (f := .passing _ _ _) (if_neg hid)]

theorem Post.plays_takeUp (same : (w.store id).watcher = p.watcher ↔ id = p.store)
    (pending : (w.store id).pending) :
    (p.protocol w (.passed id :: g)).Plays
      (p.protocol ((w.modifyStore id fun s => { s with pending := false }).note
        (.scheduled (w.store id).watcher)) (.telling rt [(w.store id).watcher] :: g)) := by
  by_cases hid : id = p.store
  · have hmem : p.watcher ∈ [(w.store id).watcher] := by rw [same.2 hid]; simp
    subst hid
    refine (Protocol.Move.takeUp (Post.seats_of_some (f := .passed _) (if_pos rfl)) pending).plays ?_
    rw [(Post.Overlooks.note p _ rfl).protocol_eq rfl, Post.protocol_modifyStore valid]
    simp only [Post.protocol, Post.seats_of_some (f := .telling _ _) (if_pos hmem)]
  · have hmem : p.watcher ∉ [(w.store id).watcher] := by
      rw [List.mem_singleton]
      exact fun h => hid (same.1 h.symm)
    refine ((Post.Overlooks.modifyStore p w id fun h => absurd h hid).trans
      (.note p _ rfl)).plays ?_
    rw [Post.seats_of_none (f := .telling _ _) (if_neg hmem),
      Post.seats_of_none (f := .passed _) (if_neg hid)]

end Store

section Flush

variable {rt : RuntimeId} (hrt : p.runtime < w.runtimes.size)
include hrt

theorem Post.plays_beginFlush (on : rt = p.runtime → OnOpen (p.seats g))
    (idle : (w.runtime rt).flushing = false) :
    (p.protocol w g).Plays (p.protocol (w.flushBegun rt) (.flushing rt :: g)) := by
  by_cases hr : rt = p.runtime
  · subst hr
    refine (Protocol.Move.beginFlush (on rfl) idle).plays ((Post.protocol_flushBegun hrt _).trans ?_)
    simp only [Post.protocol, Post.seats_of_some (f := .flushing _) (if_pos rfl)]
  · exact ((Post.Overlooks.note p w rfl).trans
      (.modifyRuntime p _ rt fun h => absurd h hr)).plays
        (Post.seats_of_none (f := .flushing _) (if_neg hr))

theorem Post.plays_beginRound :
    (p.protocol w (.flushing rt :: g)).Plays
      (p.protocol (w.roundBegun rt) (.round rt (w.runtime rt).queue :: .flushing rt :: g)) := by
  by_cases hr : rt = p.runtime
  · subst hr
    have hflush : p.seats (.flushing p.runtime :: g) = .flush :: p.seats g :=
      Post.seats_of_some (f := .flushing _) (if_pos rfl)
    refine (Protocol.Move.beginRound hflush).plays ((Post.protocol_roundBegun hrt _).trans ?_)
    simp only [Post.protocol, Post.seats_of_some (f := .round _ _) (if_pos rfl), hflush]
    rfl
  · exact ((Post.Overlooks.modifyRuntime p w rt fun h => absurd h hr).trans
      (.note p _ (e := .roundBegan _ _) (if_neg hr))).plays
        (Post.seats_of_none (f := .round _ _) (if_neg hr))

theorem Post.plays_endFlush (empty : (w.runtime rt).queue = []) :
    (p.protocol w (.flushing rt :: g)).Plays (p.protocol (w.flushEnded rt) g) := by
  by_cases hr : rt = p.runtime
  · subst hr
    have hempty : (w.queue p.runtime).count p.watcher = 0 := by
      rw [World.queue, empty]
      rfl
    refine (Protocol.Move.endFlush (Post.seats_of_some (f := .flushing _) (if_pos rfl))
      hempty).plays ((Post.protocol_flushEnded hrt _).trans ?_)
    rfl
  · exact ((Post.Overlooks.modifyRuntime p w rt fun h => absurd h hr).trans
      (.note p _ (e := .flushEnded _) (if_neg hr))).plays
        (Post.seats_of_none (f := .flushing _) (if_neg hr)).symm

end Flush

end Plays

/-- Unless an effect or a store is given up, a step is a move of a store and its watcher, or does not
concern them. -/
theorem Step.plays {p : Post} {w w' : World} {g g' : List Frame}
    (h : Step ⟨w, g, false⟩ ⟨w', g', false⟩) (hc : Config.Sane ⟨w, g, false⟩) (hl : w.Linked)
    (hm : w.Mirrored) (hh : Config.Separate ⟨w, g, false⟩)
    (hg : Stacked w g) (hw : w.Unhurried) (hp : p.Of w) (live : w'.isDisposed p.watcher = false)
    (kept : .gaveUp p.runtime ∉ w'.history) :
    (p.protocol w g).Plays (p.protocol w' g') := by
  have hrt : p.runtime < w.runtimes.size := hp.runtime ▸ (hc.world.stores _ hp.store).2.2.1
  have hwatcher : (w.effect? p.watcher).isSome := hp.watcher ▸ (hc.world.stores _ hp.store).2.2.2.1
  have hlive : w.isDisposed p.watcher = false := by
    by_contra hd
    exact Bool.false_ne_true (live.symm.trans (h.extends.disposed _ (by simpa using hd)))
  -- Of what is disposed of it is not the watcher.
  have other {n : NodeId} (hd : w.isDisposed n) : n ≠ p.watcher := by
    rintro rfl
    exact Bool.false_ne_true (hlive.symm.trans hd)
  have onCode (h : OnCode w g) : OnOpen (p.seats g) := hg.onOpen hp hl hc.frames (h.opensTo hp hl)
  cases h with
  | aside h => exact (h.overlooks p).plays rfl
  -- Reading
  | track _ _ _ _ _ => exact (Post.Overlooks.trackedBy p w _ _ _).plays rfl
  | see _ _ _ _ _ _ _ => exact (Post.Overlooks.note p w rfl).plays rfl
  | newObject _ _ _ | newArray _ _ _ =>
    exact ((Post.Overlooks.note p w rfl).trans (.of_parts rfl rfl rfl rfl)).plays rfl
  | resolveObject _ _ | resolveArray _ _ => exact (Post.Overlooks.of_parts rfl rfl rfl rfl).plays rfl
  -- Writing
  | write _ _ _ edit => exact (edit.overlooks p).plays rfl
  | beginChange _ _ _ _ => exact (Post.Overlooks.note p w rfl).plays rfl
  | endChange _ _ =>
    refine Post.Overlooks.plays ?_ rfl
    exact (Post.Overlooks.note p w rfl).trans ((Post.Overlooks.note p _ rfl).trans
      (.of_parts rfl rfl rfl rfl))
  -- Triggering
  | trigger =>
    exact Post.plays_trigger hm (hg.fitsOn_telling hp hl hc.frames hh.frames ⟨_, rfl, trivial⟩)
  | written | told => exact (Post.Overlooks.refl p w).plays rfl
  | tellDisposed disposed =>
    exact (Post.Overlooks.refl p w).plays (Post.seats_telling (other disposed) _ _)
  | tellQueued _ queued =>
    refine Post.plays_tellQueued (fun hn => hp.runtime_eq hl ?_) queued
    exact hn ▸ hh.frames _ List.mem_cons_self _ List.mem_cons_self
  | tellEffect _ fresh =>
    refine Post.plays_tellEffect (fun hn => hp.runtime_eq hl ?_) hrt fresh
    exact hn ▸ hh.frames _ List.mem_cons_self _ List.mem_cons_self
  | tellDirty memo _ | tellClean memo _ =>
    exact (Post.Overlooks.modifyMemo p w _ _).plays (Post.seats_telling (hp.ne_of_memo hl memo) _ _)
  | schedule _ _ _ _ other _ =>
    exact ((Post.Overlooks.note p w rfl).trans
      (.queuedIn p _ (hp.ne_of_isWatcher hl other))).plays rfl
  | markDirty _ _ _ | markClean _ _ _ _ =>
    exact ((Post.Overlooks.note p w rfl).trans (.modifyMemo p _ _ _)).plays rfl
  -- Memos
  | newMemo _ _ _ => exact (Post.Overlooks.pushNode p (hp.lt hl) _).plays rfl
  | reuse _ _ _ _ _ => exact ((Post.Overlooks.trackedIn p w _ _ _).trans (.note p _ rfl)).plays rfl
  | beginCompute _ memo _ _ =>
    exact ((Post.Overlooks.trackedIn p w _ _ _).trans
      (.computing p _ (hp.ne_of_memo hl memo) _)).plays rfl
  | endCompute _ _ _ => exact (Post.Overlooks.computed p w _ _ _).plays rfl
  | endReading _ _ => exact (Post.Overlooks.gotBy p w _ _ _).plays rfl
  -- Effects
  | newEffect _ _ _ _ _ _ =>
    exact (Post.Overlooks.pushNode p (hp.lt hl) _).plays
      (Post.seats_of_none (if_neg (Nat.ne_of_gt (hp.lt hl))))
  | newStore _ _ _ =>
    exact (Post.Overlooks.withStore p (hp.lt hl) hp.store _).plays
      (Post.seats_of_none (if_neg (Nat.ne_of_gt (hp.lt hl))))
  | addCleanup _ _ _ _ _ _ =>
    refine Post.Overlooks.plays ?_ rfl
    exact (Post.Overlooks.note p w rfl).trans (.modifyEffect p _ _ fun _ _ => ⟨rfl, rfl⟩)
  | beginCleaning _ => exact (Post.Overlooks.cleaning p w _ _).plays rfl
  | endCleaning => exact ((Post.Overlooks.popContext p w _).trans (.note p _ rfl)).plays rfl
  | skipPending disposed =>
    exact (Post.Overlooks.refl p w).plays
      (Post.seats_of_none (f := .pending _) (if_neg (other disposed))).symm
  | clearRunning effect busy => exact Post.plays_clearRunning effect busy
  | beginRun _ _ _ turn _ => exact Post.plays_beginRun hwatcher (turn.imp (·.1) (·.1))
  | endRun other =>
    exact (Post.Overlooks.ran p w (hp.ne_of_isWatcher hl other) _).plays
      (Post.seats_of_none (f := .running _ _) (if_neg (hp.ne_of_isWatcher hl other))).symm
  | beginWatch _ _ => exact (Post.Overlooks.refl p w).plays rfl
  | advance h => exact (Post.Overlooks.note p w (by cases h <;> rfl)).plays rfl
  | keep _ other _ =>
    exact (Post.Overlooks.modifyEffect p w _ fun h =>
      absurd h (hp.ne_of_isWatcher hl other)).plays rfl
  | endReport => exact (Post.Overlooks.refl p w).plays rfl
  | watched _ _ _ => exact Post.plays_watched
  | prime effect job => exact Post.plays_prime effect job
  | skipPass effect job gone =>
    exact (Post.Overlooks.refl p w).plays
      (Post.seats_watched_of_ne (hp.ne_of_gone hl hlive effect job gone))
  | @watchPass _ g n rt batch _ _ effect job valid idle =>
    refine Post.plays_watchPass (hp.job_iff hl effect job) (fun hn => hp.runtime_eq hl ?_) effect job
      valid idle
    exact hn ▸ hh.frames (.running n rt) (by simp)
  | watchPostpone effect job busy =>
    exact Post.plays_watchPostpone (hp.job_iff hl effect job) effect job hp.store busy
  | endWatch _ => exact Post.plays_endWatch hwatcher
  | dispose _ _ _ _ =>
    exact ((Post.Overlooks.disposing p w _).trans (.cleaning p _ _ _)).plays rfl
  | retire _ _ => exact ((Post.Overlooks.disposing p w _).trans (.note p _ rfl)).plays rfl
  | mask _ _ _ => exact (Post.Overlooks.pushContext p w _ _).plays rfl
  | unmask => exact (Post.Overlooks.popContext p w _).plays rfl
  -- Stores
  | beginPass code free valid idle =>
    exact Post.plays_beginPass (onCode (code.onCode free)) valid idle
  | postpone _ _ busy => exact Post.plays_postpone hp.store busy
  | endPass => exact Post.plays_endPass hp.store
  | @settle w g id settled =>
    by_cases hid : id = p.store
    · subst hid
      exact (Protocol.Move.settle (Post.seats_of_some (f := .passed _) (if_pos rfl)) settled).plays rfl
    · exact (Post.Overlooks.refl p w).plays (Post.seats_of_none (f := .passed _) (if_neg hid)).symm
  | @forgo w g id disposed =>
    have hid : id ≠ p.store := by
      rintro rfl
      exact other disposed hp.watcher
    exact (Post.Overlooks.modifyStore p w id fun h => absurd h hid).plays
      (Post.seats_of_none (f := .passed _) (if_neg hid)).symm
  | takeUp pending _ _ =>
    exact Post.plays_takeUp hp.store (hp.watcher_iff hl hc.top) pending
  | passOver _ => exact (Post.Overlooks.refl p w).plays rfl
  | beginCall _ _ _ | greet _ _ => exact (Post.Overlooks.callBegun p w _ _).plays rfl
  | @subscribe w g id callback _ _ _ _ =>
    exact ((Post.Overlooks.withSubscription p w id callback).trans (.pushContext p _ _ _)).plays rfl
  | endCall => exact (Post.Overlooks.callEnded p w _).plays rfl
  -- Runtimes
  | newRuntime _ => exact (Post.Overlooks.pushRuntime p hrt _ _).plays rfl
  | beginFlush code free valid idle _ =>
    refine Post.plays_beginFlush hrt (fun _ => ?_) idle
    have hcode := code.resolve_right fun h => hw _ valid h.2
    exact onCode (hcode.onCode (free hcode))
  | beginRound _ => exact Post.plays_beginRound hrt
  | @giveUp w s g rt _ frames =>
    have hr : rt ≠ p.runtime := by
      rintro rfl
      exact kept List.mem_cons_self
    refine ((Post.Overlooks.modifyRuntime p w rt fun h => absurd h hr).trans (.note p _ rfl)).plays ?_
    rcases frames with rfl | ⟨rfl, -⟩
    · exact (Post.seats_of_none (f := .round _ _) (if_neg hr)).symm
    · rfl
  | skipTurn disposed =>
    exact (Post.Overlooks.refl p w).plays (Post.seats_round (other disposed) _ _)
  | beginTurn _ =>
    refine Post.plays_beginTurn fun hn => hp.runtime_eq hl ?_
    exact hn ▸ hh.frames _ List.mem_cons_self _ List.mem_cons_self
  | @endRound w g rt =>
    by_cases hr : rt = p.runtime
    · exact (Protocol.Move.endRound (Post.seats_of_some (f := .round _ _) (if_pos hr))).plays rfl
    · exact (Post.Overlooks.refl p w).plays (Post.seats_of_none (f := .round _ _) (if_neg hr)).symm
  | endFlush ended => exact Post.plays_endFlush hrt (ended rfl)

end Reactivity
